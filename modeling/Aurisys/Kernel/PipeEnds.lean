import Aurisys.Kernel.Dead
import Aurisys.Lib.Handles

/-!
# Who holds which end of a pipe

A pipe counts its readers and its writers, and every call that copies or drops a descriptor keeps
the counts by hand: `pipe`, `dup2`, `fd_install`, `fd_close`, `fork_user`, `create`, and the two
ends of a process, `exit` and the loop of `reap`. A reader takes a count of `0` for the end of the
file, and `pipe` takes a pipe that is not open for a free one, so both must be right.

One call gets it wrong. `fd_install` vacates the descriptor it is about to overwrite without looking
whether that is the one it copies from, as `dup2` does, so a descriptor that is the last of its pipe
and is installed over itself ends in a pipe that is not open. And it does not ask whether the
process it installs into is still there.

## Scope

A process that has been killed while it runs is not reaped here, and one that has ended makes no
more calls: what happens otherwise is told in `Kernel.Dead`.

## Main definitions

* `pipe`, `dup2`, `fdInstall`, `closeFd`
* `holders` — how many descriptors there are for an end of a pipe
* `FdOp`, `FdReaches`

## Main results

* `pipe_ends`
-/

namespace Aurisys

open Paging Handles

/-- The descriptor is an end of the pipe at an address, the end that writes or the other one. -/
def OFile.isEnd (a : ℕ) (w : Bool) (f : OFile) : Bool :=
  f.n.type = .fifo ∧ f.n.internal = a ∧ decide (f.flags &&& kPipeWriteEnd ≠ 0) = w

namespace Kernel

variable {H : Type} {k k' : Kernel H} {i j : Fin kMaxTask} {a : ℕ}

def kMaxPipe : ℕ := 8

instance : NeZero kMaxPipe := ⟨by decide⟩

/-- Where a pipe of `g_pipes` is. -/
def pipeAddr (i : Fin kMaxPipe) : ℕ := i + 1

/-! ## The calls -/

/-- What `pipe` leaves in a descriptor. -/
def pipeFile (a : ℕ) (writeEnd : Bool) : OFile where
  n := {
    name := if writeEnd then [0x70, 0x69, 0x70, 0x65, 0x5F, 0x77]
    else [0x70, 0x69, 0x70, 0x65, 0x5F, 0x72]
    inode := 0
    type := .fifo
    size := 0
    internal := a
    backend := .pipe }
  pos := 0
  flags := if writeEnd then kPipeWriteEnd else 0

def setFile (k : Kernel H) (i : Fin kMaxTask) (fd : Fin kMaxFd) (f : Option OFile) : Kernel H :=
  k.setTask i { k.tasks i with fd := Function.update (k.tasks i).fd fd f }

/-- The pipe that `pipe` takes. -/
def freePipe (k : Kernel H) : Option (Fin kMaxPipe) :=
  (List.finRange kMaxPipe).find? fun i => (k.pipes (pipeAddr i)).opened = false

/-- The descriptors that are not open, lowest first. -/
def freeFds (t : Task) : List (Fin kMaxFd) :=
  (List.finRange kMaxFd).filter fun fd => (t.fd fd).isNone

/-- `pipe`: the end to read from and the end to write to. -/
def pipe (k : Kernel H) : Option (Fin kMaxFd × Fin kMaxFd) × Kernel H :=
  match k.freePipe with
  | none => (none, k)
  | some i =>
    let a := pipeAddr i
    let k := k.setPipes (Function.update k.pipes a ⟨1, 1, none, none, true⟩)
    match freeFds (k.tasks k.current) with
    | r :: w :: _ =>
      (some (r, w), (k.setFile k.current r (some (pipeFile a false))).setFile k.current w
        (some (pipeFile a true)))
    | _ => (none, k)

/-- `next_free`, `none` for `-1`. -/
def nextFree (k : Kernel H) : Option (Fin kMaxFd) := (freeFds (k.tasks k.current)).head?

/-- A descriptor that is in range. -/
def fdOf (fd : ℤ) : Option (Fin kMaxFd) :=
  if h : 0 ≤ fd ∧ fd < kMaxFd then some ⟨fd.toNat, by omega⟩ else none

/-- `fd_close`, of any number. -/
def closeFd (k : Kernel H) (fd : ℤ) : Kernel H :=
  (fdOf fd).elim k (k.closeIn k.current)

/-- A descriptor becomes what `f` says, and the pipe learns of it. -/
def putFd (k : Kernel H) (i : Fin kMaxTask) (fd : Fin kMaxFd) (f : Option OFile) : Kernel H :=
  (k.setFile i fd f).setPipes (f.elim k.pipes (fdShare k.pipes))

/-- `dup2`: the new descriptor, or `none` for `-1`. -/
def dup2 (k : Kernel H) (old nw : ℤ) : Option (Fin kMaxFd) × Kernel H :=
  match fdOf old, fdOf nw with
  | some old, some nw =>
    if old = nw then (some nw, k)
    else
      let k := if ((k.tasks k.current).fd nw).isSome then k.closeIn k.current nw else k
      (some nw, k.putFd k.current nw ((k.tasks k.current).fd old))
  | _, _ => (none, k)

/-- `SYS_dup`. -/
def dup (k : Kernel H) (old : ℤ) : Option (Fin kMaxFd) × Kernel H :=
  k.dup2 old (k.nextFree.elim (-1) fun fd => (fd : ℤ))

/-- `fd_install`: what is there is given up, and then overwritten. -/
def fdInstall (k : Kernel H) (into : Fin kMaxTask) (childFd src : ℤ) :
    Option (Fin kMaxFd) × Kernel H :=
  match fdOf childFd, fdOf src with
  | some childFd, some src =>
    match (k.tasks k.current).fd src with
    | none => (none, k)
    | some f =>
      let k := ((k.tasks into).fd childFd).elim k k.fdUnshare
      (some childFd, k.putFd into childFd (some f))
  | _, _ => (none, k)

/-! ## Counting -/

/-- How many descriptors there are for an end of a pipe. -/
def holders (k : Kernel H) (a : ℕ) (w : Bool) : ℕ :=
  count (OFile.isEnd a w) fun i => (k.tasks i).fd

/-- There is a descriptor for the pipe. -/
def Held (k : Kernel H) (a : ℕ) : Prop :=
  ∃ i fd f, (k.tasks i).fd fd = some f ∧ f.n.type = .fifo ∧ f.n.internal = a

theorem held_iff : Held k a ↔ 0 < k.holders a false + k.holders a true := by
  constructor
  · rintro ⟨i, fd, f, hf, ht, ha⟩
    have hw : ∀ w, decide (f.flags &&& kPipeWriteEnd ≠ 0) = w → 0 < k.holders a w := fun w hw =>
      count_pos _ |>.mpr ⟨i, fd, f, hf, decide_eq_true ⟨ht, ha, hw⟩⟩
    by_cases h : f.flags &&& kPipeWriteEnd ≠ 0
    · have := hw true (decide_eq_true h)
      omega
    · have := hw false (decide_eq_false h)
      omega
  · intro h
    obtain ⟨w, hw⟩ : ∃ w, 0 < k.holders a w := by
      by_contra hn
      have h₁ := not_exists.mp hn false
      have h₂ := not_exists.mp hn true
      omega
    obtain ⟨i, fd, f, hf, hP⟩ := (count_pos _).mp hw
    obtain ⟨ht, ha, -⟩ := of_decide_eq_true hP
    exact ⟨i, fd, f, hf, ht, ha⟩

/-- The counts of every pipe that somebody holds are right, and it is open. -/
def Counted (k : Kernel H) : Prop :=
  ∀ a, a ≠ 0 → k.Held a → (k.pipes a).readers = k.holders a false ∧
    (k.pipes a).writers = k.holders a true ∧ (k.pipes a).opened = true

/-- The descriptors and what the pipes know of them are as they were. -/
structure SameFds (k k' : Kernel H) : Prop where
  fd : ∀ i, (k'.tasks i).fd = (k.tasks i).fd
  readers : ∀ a, (k'.pipes a).readers = (k.pipes a).readers
  writers : ∀ a, (k'.pipes a).writers = (k.pipes a).writers
  opened : ∀ a, (k'.pipes a).opened = (k.pipes a).opened

theorem SameFds.refl (k : Kernel H) : SameFds k k :=
  ⟨fun _ => rfl, fun _ => rfl, fun _ => rfl, fun _ => rfl⟩

theorem SameFds.trans {k'' : Kernel H} (h : SameFds k k') (h' : SameFds k' k'') : SameFds k k'' :=
  ⟨fun i => (h'.fd i).trans (h.fd i), fun a => (h'.readers a).trans (h.readers a),
    fun a => (h'.writers a).trans (h.writers a), fun a => (h'.opened a).trans (h.opened a)⟩

theorem SameFds.holders (h : SameFds k k') (a : ℕ) (w : Bool) : k'.holders a w = k.holders a w := by
  rw [Kernel.holders, Kernel.holders, funext h.fd]

theorem Counted.same (hc : Counted k) (h : SameFds k k') : Counted k' := by
  intro a ha hh
  rw [held_iff, h.holders, h.holders, ← held_iff] at hh
  rw [h.readers, h.writers, h.opened, h.holders, h.holders]
  exact hc a ha hh

theorem SameFds.setTask {t : Task} (h : t.fd = (k.tasks i).fd) : SameFds k (k.setTask i t) := by
  refine ⟨fun j => ?_, fun _ => rfl, fun _ => rfl, fun _ => rfl⟩
  rw [setTask_tasks, Function.update_apply]
  split
  · next hj => rw [hj, h]
  · rfl

theorem sameFds_unblock (k : Kernel H) (i : Fin kMaxTask) : SameFds k (k.unblock i) := by
  rw [unblock]
  split
  · exact .setTask rfl
  · exact .setTask rfl

theorem sameFds_elim_unblock (k : Kernel H) (o : Option (Fin kMaxTask)) :
    SameFds k (o.elim k k.unblock) := by
  cases o with
  | none => exact .refl k
  | some i => exact sameFds_unblock k i

theorem sameFds_announce (k : Kernel H) (i : Fin kMaxTask) : SameFds k (k.announce i) := by
  rw [announce]
  cases k.find (k.tasks i).ppid with
  | none => exact .refl k
  | some p =>
    dsimp only
    split
    · exact .refl k
    · split
      · exact .refl k
      · split
        · refine SameFds.trans ?_ (sameFds_unblock _ p)
          exact .setTask rfl
        · exact .setTask rfl

/-! ## One descriptor more, or less -/

theorem setFile_fd (k : Kernel H) (i j : Fin kMaxTask) (fd : Fin kMaxFd) (f : Option OFile) :
    ((k.setFile i fd f).tasks j).fd
      = if j = i then Function.update (k.tasks i).fd fd f else (k.tasks j).fd := by
  rw [setFile, setTask_tasks, Function.update_apply]
  split
  · rfl
  · rfl

theorem setFile_state (k : Kernel H) (i j : Fin kMaxTask) (fd : Fin kMaxFd) (f : Option OFile) :
    ((k.setFile i fd f).tasks j).state = (k.tasks j).state := by
  rw [setFile, setTask_tasks, Function.update_apply]
  split
  · next hj => rw [hj]
  · rfl

theorem holders_setFile (k : Kernel H) (i : Fin kMaxTask) (fd : Fin kMaxFd) (f : Option OFile)
    (a : ℕ) (w : Bool) : (k.setFile i fd f).holders a w + one (OFile.isEnd a w) ((k.tasks i).fd fd)
      = k.holders a w + one (OFile.isEnd a w) f := by
  have he : (fun j => ((k.setFile i fd f).tasks j).fd)
      = Function.update (fun j => (k.tasks j).fd) i (Function.update (k.tasks i).fd fd f) := by
    funext j
    rw [setFile_fd, Function.update_apply]
  rw [holders, he]
  exact count_slot _ _ i fd f

theorem one_isEnd (f : OFile) (a : ℕ) (w : Bool) : one (OFile.isEnd a w) (some f) =
    if f.n.type = .fifo ∧ f.n.internal = a ∧ decide (f.flags &&& kPipeWriteEnd ≠ 0) = w
      then 1 else 0 := by
  rw [one, Option.any_some, OFile.isEnd]
  simp only [decide_eq_true_eq]

/-- **`fd_share`.** -/
theorem fdShare_apply (pipes : ℕ → Pipe) (f : OFile) (ha : a ≠ 0) :
    fdShare pipes f a = { pipes a with
      readers := (pipes a).readers + one (OFile.isEnd a false) (some f)
      writers := (pipes a).writers + one (OFile.isEnd a true) (some f) } := by
  rw [one_isEnd, one_isEnd, fdShare]
  by_cases h : f.n.type = .fifo ∧ f.n.internal = a
  · obtain ⟨ht, rfl⟩ := h
    rw [if_neg (not_or.mpr ⟨not_not.mpr ht, ha⟩)]
    dsimp only
    rw [Function.update_self]
    by_cases hw : f.flags &&& kPipeWriteEnd ≠ 0
    · rw [if_pos hw, if_neg (by simp [hw]), if_pos ⟨ht, rfl, decide_eq_true hw⟩]
      rfl
    · rw [if_neg hw, if_pos ⟨ht, rfl, decide_eq_false hw⟩, if_neg (by simp [hw])]
      rfl
  · have hno : ∀ w : Bool, ¬(f.n.type = .fifo ∧ f.n.internal = a ∧
        decide (f.flags &&& kPipeWriteEnd ≠ 0) = w) := fun w hw => h ⟨hw.1, hw.2.1⟩
    rw [if_neg (hno false), if_neg (hno true)]
    split
    · rfl
    · next hf =>
      obtain ⟨ht, -⟩ := not_or.mp hf
      rw [Function.update_of_ne fun he => h ⟨not_not.mp ht, he.symm⟩]
      rfl

theorem elim_unblock_pipes (k : Kernel H) (o : Option (Fin kMaxTask)) :
    (o.elim k k.unblock).pipes = k.pipes := by
  cases o with
  | none => rfl
  | some i =>
    change (k.unblock i).pipes = k.pipes
    rw [unblock]
    split
    · rfl
    · rfl

/-! `fd_unshare` has four steps: the count goes down, a reader and a writer that wait on the far
side are woken, and a pipe with no ends is free again. -/

/-- One end less. -/
def dropEnd (p : Pipe) (writeEnd : Prop) [Decidable writeEnd] : Pipe :=
  if writeEnd then { p with writers := p.writers - 1 } else { p with readers := p.readers - 1 }

/-- The reader has been woken. -/
def clearRd (p : Pipe) (o : Option (Fin kMaxTask)) : Pipe :=
  if o.isSome then { p with rdWait := none } else p

/-- The writer has been woken. -/
def clearWr (p : Pipe) (o : Option (Fin kMaxTask)) : Pipe :=
  if o.isSome then { p with wrWait := none } else p

/-- A pipe with no ends is free. -/
def shutIdle (p : Pipe) : Pipe :=
  if p.writers = 0 ∧ p.readers = 0 then { p with opened := false } else p

/-- The reader that waits for the last writer to go. -/
def lastWriter (p : Pipe) (writeEnd : Prop) [Decidable writeEnd] : Option (Fin kMaxTask) :=
  if writeEnd ∧ p.writers = 0 then p.rdWait else none

/-- The writer that waits for the last reader to go. -/
def lastReader (p : Pipe) (writeEnd : Prop) [Decidable writeEnd] : Option (Fin kMaxTask) :=
  if ¬writeEnd ∧ p.readers = 0 then p.wrWait else none

/-- All four. -/
def unshared (p : Pipe) (writeEnd : Prop) [Decidable writeEnd] : Pipe :=
  let p := dropEnd p writeEnd
  let p := clearRd p (lastWriter p writeEnd)
  shutIdle (clearWr p (lastReader p writeEnd))

/-- Who is woken when an end goes: a reader first, then a writer. -/
def wakeFar (k : Kernel H) (p : Pipe) (writeEnd : Prop) [Decidable writeEnd] : Kernel H :=
  let p := dropEnd p writeEnd
  let k := (lastWriter p writeEnd).elim k k.unblock
  (lastReader (clearRd p (lastWriter p writeEnd)) writeEnd).elim k k.unblock

theorem wakeFar_pipes (k : Kernel H) (p : Pipe) (writeEnd : Prop) [Decidable writeEnd] :
    (k.wakeFar p writeEnd).pipes = k.pipes := by
  rw [wakeFar, elim_unblock_pipes, elim_unblock_pipes]

theorem fdUnshare_eq (k : Kernel H) {f : OFile} (hf : f.n.type = .fifo) (ha : f.n.internal ≠ 0) :
    k.fdUnshare f = (k.wakeFar (k.pipes f.n.internal) (f.flags &&& kPipeWriteEnd ≠ 0)).setPipes
      (Function.update k.pipes f.n.internal
        (unshared (k.pipes f.n.internal) (f.flags &&& kPipeWriteEnd ≠ 0))) := by
  have he : k.fdUnshare f =
    (k.wakeFar (k.pipes f.n.internal) (f.flags &&& kPipeWriteEnd ≠ 0)).setPipes
      (Function.update (k.wakeFar (k.pipes f.n.internal) (f.flags &&& kPipeWriteEnd ≠ 0)).pipes
        f.n.internal (unshared (k.pipes f.n.internal) (f.flags &&& kPipeWriteEnd ≠ 0))) := by
    rw [fdUnshare, if_neg (not_or.mpr ⟨not_not.mpr hf, ha⟩)]
    rfl
  rw [he, wakeFar_pipes]

theorem fdUnshare_of_not (k : Kernel H) {f : OFile} (h : ¬(f.n.type = .fifo ∧ f.n.internal ≠ 0)) :
    k.fdUnshare f = k := by
  rw [fdUnshare, if_pos]
  by_contra hn
  obtain ⟨ht, ha⟩ := not_or.mp hn
  exact h ⟨not_not.mp ht, ha⟩

@[simp] theorem clearRd_readers (p : Pipe) (o : Option (Fin kMaxTask)) :
    (clearRd p o).readers = p.readers := by
  rw [clearRd]
  split <;> rfl

@[simp] theorem clearRd_writers (p : Pipe) (o : Option (Fin kMaxTask)) :
    (clearRd p o).writers = p.writers := by
  rw [clearRd]
  split <;> rfl

@[simp] theorem clearRd_opened (p : Pipe) (o : Option (Fin kMaxTask)) :
    (clearRd p o).opened = p.opened := by
  rw [clearRd]
  split <;> rfl

@[simp] theorem clearWr_readers (p : Pipe) (o : Option (Fin kMaxTask)) :
    (clearWr p o).readers = p.readers := by
  rw [clearWr]
  split <;> rfl

@[simp] theorem clearWr_writers (p : Pipe) (o : Option (Fin kMaxTask)) :
    (clearWr p o).writers = p.writers := by
  rw [clearWr]
  split <;> rfl

@[simp] theorem clearWr_opened (p : Pipe) (o : Option (Fin kMaxTask)) :
    (clearWr p o).opened = p.opened := by
  rw [clearWr]
  split <;> rfl

theorem unshared_spec (p : Pipe) (writeEnd : Prop) [Decidable writeEnd] :
    (unshared p writeEnd).readers = (dropEnd p writeEnd).readers ∧
      (unshared p writeEnd).writers = (dropEnd p writeEnd).writers ∧
      (p.opened = true → 0 < (unshared p writeEnd).readers + (unshared p writeEnd).writers →
        (unshared p writeEnd).opened = true) := by
  have hopen : (dropEnd p writeEnd).opened = p.opened := by
    rw [dropEnd]
    split <;> rfl
  rw [unshared]
  generalize dropEnd p writeEnd = p₁ at hopen ⊢
  rw [shutIdle]
  split
  · next h =>
    simp only [clearWr_readers, clearWr_writers, clearRd_readers, clearRd_writers] at h ⊢
    exact ⟨trivial, trivial, fun _ hp => by omega⟩
  · simp only [clearWr_readers, clearWr_writers, clearWr_opened, clearRd_readers, clearRd_writers,
      clearRd_opened, hopen]
    exact ⟨trivial, trivial, fun h _ => h⟩

/-- **`fd_unshare`.** -/
theorem fdUnshare_apply (k : Kernel H) (f : OFile) (ha : a ≠ 0) :
    ((k.fdUnshare f).pipes a).readers
      = (k.pipes a).readers - one (OFile.isEnd a false) (some f) ∧
    ((k.fdUnshare f).pipes a).writers
      = (k.pipes a).writers - one (OFile.isEnd a true) (some f) ∧
    ((k.pipes a).opened = true → 0 < ((k.fdUnshare f).pipes a).readers +
      ((k.fdUnshare f).pipes a).writers → ((k.fdUnshare f).pipes a).opened = true) := by
  rw [one_isEnd, one_isEnd]
  by_cases h : f.n.type = .fifo ∧ f.n.internal = a
  · obtain ⟨ht, rfl⟩ := h
    obtain ⟨hr, hw, ho⟩ := unshared_spec (k.pipes f.n.internal) (f.flags &&& kPipeWriteEnd ≠ 0)
    rw [fdUnshare_eq k ht ha, setPipes_pipes, Function.update_self]
    refine ⟨hr.trans ?_, hw.trans ?_, ho⟩ <;> rw [dropEnd] <;>
      by_cases hend : f.flags &&& kPipeWriteEnd ≠ 0
    · rw [if_pos hend, if_neg (by simp [hend])]
      rfl
    · rw [if_neg hend, if_pos ⟨ht, rfl, decide_eq_false hend⟩]
    · rw [if_pos hend, if_pos ⟨ht, rfl, decide_eq_true hend⟩]
    · rw [if_neg hend, if_neg (by simp [hend])]
      rfl
  · have hno : ∀ w : Bool, ¬(f.n.type = .fifo ∧ f.n.internal = a ∧
        decide (f.flags &&& kPipeWriteEnd ≠ 0) = w) := fun w hw => h ⟨hw.1, hw.2.1⟩
    rw [if_neg (hno false), if_neg (hno true)]
    by_cases hf : f.n.type = .fifo ∧ f.n.internal ≠ 0
    · rw [fdUnshare_eq k hf.1 hf.2, setPipes_pipes,
        Function.update_of_ne fun he => h ⟨hf.1, he.symm⟩]
      exact ⟨rfl, rfl, fun ho _ => ho⟩
    · rw [fdUnshare_of_not k hf]
      exact ⟨rfl, rfl, fun ho _ => ho⟩

theorem fdUnshare_fd (k : Kernel H) (f : OFile) (i : Fin kMaxTask) :
    ((k.fdUnshare f).tasks i).fd = (k.tasks i).fd := by
  rw [fdUnshare]
  split
  · rfl
  · exact ((sameFds_elim_unblock k _).trans (sameFds_elim_unblock _ _)).fd i

/-- Closing gives up one descriptor. -/
theorem holders_closeIn (k : Kernel H) (i : Fin kMaxTask) (fd : Fin kMaxFd) (a : ℕ) (w : Bool) :
    (k.closeIn i fd).holders a w + one (OFile.isEnd a w) ((k.tasks i).fd fd) = k.holders a w := by
  set k₁ := ((k.tasks i).fd fd).elim k k.fdUnshare with hk₁
  have hfd : ∀ j, (k₁.tasks j).fd = (k.tasks j).fd := fun j => by
    rw [hk₁]
    cases (k.tasks i).fd fd with
    | none => rfl
    | some f => exact fdUnshare_fd k f j
  have h := holders_setFile k₁ i fd none a w
  rw [hfd, one_none, add_zero] at h
  have hclose : k.closeIn i fd = k₁.setFile i fd none := rfl
  rw [hclose, h, holders, holders, funext hfd]

/-- **Closing.** -/
theorem Counted.closeIn (h : Counted k) (i : Fin kMaxTask) (fd : Fin kMaxFd) :
    Counted (k.closeIn i fd) := by
  intro a ha hh
  have hpipe : ((k.closeIn i fd).pipes a).readers
        = (k.pipes a).readers - one (OFile.isEnd a false) ((k.tasks i).fd fd) ∧
      ((k.closeIn i fd).pipes a).writers
        = (k.pipes a).writers - one (OFile.isEnd a true) ((k.tasks i).fd fd) ∧
      ((k.pipes a).opened = true → 0 < ((k.closeIn i fd).pipes a).readers +
        ((k.closeIn i fd).pipes a).writers → ((k.closeIn i fd).pipes a).opened = true) := by
    have hclose : (k.closeIn i fd).pipes = (((k.tasks i).fd fd).elim k k.fdUnshare).pipes := rfl
    rw [hclose]
    cases (k.tasks i).fd fd with
    | none => exact ⟨rfl, rfl, fun ho _ => ho⟩
    | some f => exact fdUnshare_apply k f ha
  have hr := holders_closeIn k i fd a false
  have hw := holders_closeIn k i fd a true
  rw [held_iff] at hh
  obtain ⟨h₁, h₂, h₃⟩ := h a ha (held_iff.mpr (by omega))
  obtain ⟨p₁, p₂, p₃⟩ := hpipe
  exact ⟨by omega, by omega, p₃ h₃ (by omega)⟩

/-- **One more.** A descriptor is put where there is none; its pipe, if it has one, is held by
others, or it is about to be. -/
theorem Counted.putFd (h : Counted k) {fd : Fin kMaxFd} {f : Option OFile}
    (hfree : (k.tasks i).fd fd = none)
    (hf : ∀ g, f = some g → g.n.type = .fifo → g.n.internal ≠ 0 → k.Held g.n.internal) :
    Counted (k.putFd i fd f) := by
  intro a ha hh
  have hhold : ∀ w, (k.putFd i fd f).holders a w = k.holders a w + one (OFile.isEnd a w) f :=
    fun w => by
      have := holders_setFile k i fd f a w
      rwa [hfree, one_none, add_zero] at this
  have hpipe : (k.putFd i fd f).pipes a = { k.pipes a with
      readers := (k.pipes a).readers + one (OFile.isEnd a false) f
      writers := (k.pipes a).writers + one (OFile.isEnd a true) f } := by
    cases f with
    | none => rfl
    | some g => exact fdShare_apply k.pipes g ha
  have hold : k.Held a := by
    rw [held_iff, hhold, hhold] at hh
    by_contra hn
    have hz : ¬0 < k.holders a false + k.holders a true := fun hp => hn (held_iff.mpr hp)
    cases f with
    | none =>
      rw [one_none, one_none] at hh
      omega
    | some g =>
      rw [one_isEnd, one_isEnd] at hh
      by_cases hg : g.n.type = .fifo ∧ g.n.internal = a
      · exact hn (hg.2 ▸ hf g rfl hg.1 (hg.2 ▸ ha))
      · rw [if_neg fun hw => hg ⟨hw.1, hw.2.1⟩, if_neg fun hw => hg ⟨hw.1, hw.2.1⟩] at hh
        omega
  obtain ⟨h₁, h₂, h₃⟩ := h a ha hold
  rw [hpipe, hhold, hhold, ← h₁, ← h₂]
  exact ⟨rfl, rfl, h₃⟩

/-- Closing takes the descriptor away, and no others. -/
theorem closeIn_fd (k : Kernel H) (i j : Fin kMaxTask) (fd fd' : Fin kMaxFd) :
    ((k.closeIn i fd).tasks j).fd fd'
      = if j = i ∧ fd' = fd then none else (k.tasks j).fd fd' := by
  set k₁ := ((k.tasks i).fd fd).elim k k.fdUnshare with hk₁
  have hfd : ∀ j, (k₁.tasks j).fd = (k.tasks j).fd := fun j => by
    rw [hk₁]
    cases (k.tasks i).fd fd with
    | none => rfl
    | some f => exact fdUnshare_fd k f j
  have hclose : k.closeIn i fd = k₁.setFile i fd none := rfl
  rw [hclose, setFile_fd]
  by_cases hj : j = i
  · rw [if_pos hj, Function.update_apply, hfd, hj]
    simp only [true_and]
  · rw [if_neg hj, if_neg fun he => hj he.1, hfd]

theorem held_closeIn {fd : Fin kMaxFd}
    (hother : ∃ j fd' f, (j, fd') ≠ (i, fd) ∧ (k.tasks j).fd fd' = some f ∧ f.n.type = .fifo ∧
      f.n.internal = a) : (k.closeIn i fd).Held a := by
  obtain ⟨j, fd', f, hne, hf, ht, ha⟩ := hother
  refine ⟨j, fd', f, ?_, ht, ha⟩
  rw [closeIn_fd, if_neg, hf]
  rintro ⟨rfl, rfl⟩
  exact hne rfl

/-- Only running processes and the current one have descriptors. -/
def Shut (k : Kernel H) : Prop :=
  ∀ i, (k.tasks i).state.Ended → ∀ fd, (k.tasks i).fd fd = none

/-- **The invariant.** -/
structure Ends (k : Kernel H) : Prop where
  /-- The counts are those of the descriptors. -/
  counted : Counted k
  /-- What has no slot has no descriptors. -/
  shut : Shut k

/-- What an invariant of the pipes has to stand: that nothing happens to descriptors, that one is
closed, that one is put where there is none, and that a new process has those of another. -/
structure Stands (I : Kernel H → Prop) : Prop where
  /-- Nothing happens to the descriptors. -/
  same : ∀ {k k' : Kernel H}, SameFds k k' → I k → I k'
  /-- One is closed. -/
  closeIn : ∀ {k : Kernel H} (i : Fin kMaxTask) (fd : Fin kMaxFd), I k → I (k.closeIn i fd)
  /-- One is put where there is none. -/
  putFd : ∀ {k : Kernel H} {i : Fin kMaxTask} {fd : Fin kMaxFd} {f : Option OFile},
    (k.tasks i).fd fd = none →
    (∀ g, f = some g → g.n.type = .fifo → g.n.internal ≠ 0 → k.Held g.n.internal) →
    I k → I (k.putFd i fd f)
  /-- A new process has those of another. -/
  handDown : ∀ {k : Kernel H} {slot i : Fin kMaxTask} {t : Task},
    ((k.tasks slot).fd = fun _ => none) → t.fd = (k.tasks i).fd → I k →
    I ((k.setTask slot t).setPipes (fdShareAll k.pipes t.fd))

/-- The invariant of the pipes, and that of the descriptors. -/
structure Upheld (I : Kernel H → Prop) (k : Kernel H) : Prop where
  /-- The pipes are right. -/
  inv : I k
  /-- What has no slot has no descriptors. -/
  shut : Shut k

theorem Ends.upheld (h : Ends k) : Upheld Counted k := ⟨h.counted, h.shut⟩

theorem Upheld.ends (h : Upheld Counted k) : Ends k := ⟨h.inv, h.shut⟩

/-- The states of the tasks, as far as descriptors go. -/
def SameEnded (k k' : Kernel H) : Prop :=
  ∀ i, (k'.tasks i).state.Ended → (k.tasks i).state.Ended

theorem Wakes.sameEnded (h : Wakes k k') : SameEnded k k' :=
  fun i => (Soft.wake (h.state i)).ended.mp

section

variable {I : Kernel H → Prop} (hI : Stands I)

include hI

theorem Upheld.same (h : Upheld I k) (hf : SameFds k k') (hs : SameEnded k k') : Upheld I k' :=
  ⟨hI.same hf h.inv, fun i hi fd => by
    rw [hf.fd]
    exact h.shut i (hs i hi) fd⟩

theorem Upheld.closeIn (h : Upheld I k) (i : Fin kMaxTask) (fd : Fin kMaxFd) :
    Upheld I (k.closeIn i fd) := by
  refine ⟨hI.closeIn i fd h.inv, fun j hj fd' => ?_⟩
  rw [closeIn_fd]
  split
  · rfl
  · exact h.shut j ((wakes_closeIn k i fd).sameEnded j hj) fd'

theorem Upheld.putFd (h : Upheld I k) {fd : Fin kMaxFd} {f : Option OFile}
    (hi : ¬(k.tasks i).state.Ended) (hfree : (k.tasks i).fd fd = none)
    (hf : ∀ g, f = some g → g.n.type = .fifo → g.n.internal ≠ 0 → k.Held g.n.internal) :
    Upheld I (k.putFd i fd f) := by
  refine ⟨hI.putFd hfree hf h.inv, fun j hj fd' => ?_⟩
  rw [Kernel.putFd, setPipes_tasks] at hj ⊢
  rw [setFile_state] at hj
  have hji : j ≠ i := fun he => hi (he ▸ hj)
  rw [setFile_fd, if_neg hji]
  exact h.shut j hj fd'

/-- **`fd_close`.** -/
theorem Upheld.closeFd (h : Upheld I k) (fd : ℤ) : Upheld I (k.closeFd fd) := by
  rw [Kernel.closeFd]
  cases fdOf fd with
  | none => exact h
  | some fd => exact h.closeIn hI k.current fd

/-- **`dup2`.** -/
theorem Upheld.dup2 (h : Upheld I k) (hc : ¬(k.tasks k.current).state.Ended) (old nw : ℤ) :
    Upheld I (k.dup2 old nw).2 := by
  rw [Kernel.dup2]
  cases fdOf old with
  | none => exact h
  | some old =>
    cases fdOf nw with
    | none => exact h
    | some nw =>
      dsimp only
      split
      · exact h
      · next hne =>
        -- After the target is vacated the other descriptor is what it was.
        have hclose : Upheld I (if ((k.tasks k.current).fd nw).isSome then k.closeIn k.current nw
              else k) ∧
            (if ((k.tasks k.current).fd nw).isSome then k.closeIn k.current nw else k).current
              = k.current ∧
            ((if ((k.tasks k.current).fd nw).isSome then k.closeIn k.current nw else k).tasks
              k.current).fd nw = none ∧
            ¬((if ((k.tasks k.current).fd nw).isSome then k.closeIn k.current nw else k).tasks
              k.current).state.Ended := by
          split
          · have hw := wakes_closeIn k k.current nw
            refine ⟨h.closeIn hI k.current nw, hw.current, ?_, fun he => hc (hw.sameEnded _ he)⟩
            rw [closeIn_fd, if_pos ⟨rfl, rfl⟩]
          · next hnone => exact ⟨h, rfl, Option.not_isSome_iff_eq_none.mp hnone, hc⟩
        generalize (if ((k.tasks k.current).fd nw).isSome then k.closeIn k.current nw else k) = k₁
          at hclose ⊢
        obtain ⟨h₁, hcur, hfd, hend⟩ := hclose
        rw [hcur]
        exact h₁.putFd hI hend hfd fun g hg ht _ => ⟨k.current, old, g, hg, ht, rfl⟩

end

/-- The descriptor is the only one its pipe has. -/
def Last (k : Kernel H) (f : OFile) : Prop :=
  f.n.type = .fifo ∧ k.holders f.n.internal false + k.holders f.n.internal true = 1

theorem fdOf_eq_some {x : ℤ} {fd : Fin kMaxFd} : fdOf x = some fd ↔ x = fd := by
  rw [fdOf]
  split
  · next h =>
    constructor
    · intro he
      obtain rfl := Option.some.inj he
      exact (Int.toNat_of_nonneg h.1).symm
    · rintro rfl
      exact congrArg some (Fin.ext (Int.toNat_natCast fd))
  · next h =>
    constructor
    · intro he
      cases he
    · rintro rfl
      exact absurd ⟨Int.natCast_nonneg fd, Int.ofNat_lt.mpr fd.isLt⟩ h

theorem putFd_setFile (k : Kernel H) (i : Fin kMaxTask) (fd : Fin kMaxFd) (f g : Option OFile) :
    (k.setFile i fd g).putFd i fd f = k.putFd i fd f := by
  have hset : (k.setFile i fd g).setFile i fd f = k.setFile i fd f := by
    rw [setFile, setFile, setFile, setTask_setTask, setTask_tasks, Function.update_self]
    dsimp only
    rw [Function.update_idem]
  have hpipes : (k.setFile i fd g).pipes = k.pipes := rfl
  rw [Kernel.putFd, Kernel.putFd, hset, hpipes]

/-- What is no pipe no pipe learns of. -/
theorem setFile_eq_putFd (i : Fin kMaxTask) (fd : Fin kMaxFd) {f : OFile} (hf : f.n.type ≠ .fifo) :
    k.setFile i fd (some f) = k.putFd i fd (some f) := by
  have hshare : fdShare k.pipes f = k.pipes := by rw [fdShare, if_pos (Or.inl hf)]
  rw [Kernel.putFd, Option.elim_some, hshare]
  rfl

/-- **`fd_install`** comes to the same as closing the descriptor first. -/
theorem fdInstall_eq (k : Kernel H) (into : Fin kMaxTask) (childFd src : ℤ) :
    (k.fdInstall into childFd src).2 = k ∨ ∃ child fd f, fdOf childFd = some child ∧
      fdOf src = some fd ∧ (k.tasks k.current).fd fd = some f ∧
      (k.fdInstall into childFd src).2 = (k.closeIn into child).putFd into child (some f) := by
  rw [Kernel.fdInstall]
  cases hchild : fdOf childFd with
  | none => exact .inl rfl
  | some child =>
    cases hsrc : fdOf src with
    | none => exact .inl rfl
    | some fd =>
      dsimp only
      cases hf : (k.tasks k.current).fd fd with
      | none => exact .inl rfl
      | some f =>
        exact .inr ⟨child, fd, f, rfl, rfl, hf, (putFd_setFile _ into child (some f) none).symm⟩

theorem freePipe_eq_some {p : Fin kMaxPipe} (h : k.freePipe = some p) :
    (k.pipes (pipeAddr p)).opened = false := by
  simpa using List.find?_some h

theorem mem_freeFds {t : Task} {fd : Fin kMaxFd} : fd ∈ freeFds t ↔ t.fd fd = none := by
  rw [freeFds, List.mem_filter]
  simp

/-- **A pipe that is taken is nobody's.** -/
theorem Counted.freePipe (h : Counted k) {p : Fin kMaxPipe} (hp : k.freePipe = some p) :
    ¬k.Held (pipeAddr p) := by
  intro hh
  have := (h (pipeAddr p) (Nat.succ_ne_zero _) hh).2.2
  rw [freePipe_eq_some hp] at this
  cases this

/-- A new pipe: two descriptors for it, where there was none. -/
theorem pipe_spec {r w : Fin kMaxFd} (h : k.pipe.1 = some (r, w)) :
    ∃ p, k.freePipe = some p ∧ r ≠ w ∧ (k.tasks k.current).fd r = none ∧
      (k.tasks k.current).fd w = none ∧
      k.pipe.2 = ((k.setPipes (Function.update k.pipes (pipeAddr p)
          ⟨1, 1, none, none, true⟩)).setFile k.current r
          (some (pipeFile (pipeAddr p) false))).setFile
        k.current w (some (pipeFile (pipeAddr p) true)) := by
  have hfds : ∀ {r w : Fin kMaxFd} {l}, freeFds (k.tasks k.current) = r :: w :: l →
      r ≠ w ∧ (k.tasks k.current).fd r = none ∧ (k.tasks k.current).fd w = none := by
    intro r w l hl
    have hnodup : (freeFds (k.tasks k.current)).Nodup := (List.nodup_finRange _).filter _
    rw [hl] at hnodup
    refine ⟨?_, mem_freeFds.mp (hl ▸ List.mem_cons_self),
      mem_freeFds.mp (hl ▸ List.mem_cons_of_mem _ List.mem_cons_self)⟩
    rintro rfl
    exact (List.nodup_cons.mp hnodup).1 List.mem_cons_self
  rw [Kernel.pipe] at h ⊢
  cases hp : k.freePipe with
  | none =>
    rw [hp] at h
    cases h
  | some p =>
    rw [hp] at h
    rcases hl : freeFds (k.tasks k.current) with _ | ⟨r', _ | ⟨w', l⟩⟩
    · simp [hl] at h
    · simp [hl] at h
    · simp only [setPipes_tasks, setPipes_current, hl] at h ⊢
      obtain ⟨rfl, rfl⟩ := Prod.mk.inj (Option.some.inj h)
      exact ⟨p, rfl, (hfds hl).1, (hfds hl).2.1, (hfds hl).2.2, rfl⟩

theorem one_pipeFile (a b : ℕ) (e w : Bool) : one (OFile.isEnd b e) (some (pipeFile a w)) =
    if a = b ∧ w = e then 1 else 0 := by
  have hend : decide ((pipeFile a w).flags &&& kPipeWriteEnd ≠ 0) = w := by
    cases w with
    | false =>
      change decide ((0 : UInt32) &&& kPipeWriteEnd ≠ 0) = false
      decide
    | true =>
      change decide (kPipeWriteEnd &&& kPipeWriteEnd ≠ 0) = true
      decide
  rw [one_isEnd, hend]
  refine if_congr ?_ rfl rfl
  exact ⟨fun h => ⟨h.2.1, h.2.2⟩, fun h => ⟨rfl, h.1, h.2⟩⟩

/-- A call that succeeds: a slot that was free counts one of each, and there are two descriptors
more. -/
theorem pipe_effect (hok : k.pipe.1.isSome) : ∃ p, k.freePipe = some p ∧
    k.pipe.2.pipes = Function.update k.pipes (pipeAddr p) ⟨1, 1, none, none, true⟩ ∧
    (∀ a e, k.pipe.2.holders a e = k.holders a e + (if pipeAddr p = a ∧ false = e then 1 else 0)
      + (if pipeAddr p = a ∧ true = e then 1 else 0)) ∧
    (∀ j, (k.pipe.2.tasks j).state = (k.tasks j).state) ∧
    ∀ j, j ≠ k.current → (k.pipe.2.tasks j).fd = (k.tasks j).fd := by
  obtain ⟨⟨r, w⟩, hrw⟩ := Option.isSome_iff_exists.mp hok
  obtain ⟨p, hp, hne, hr, hw, he⟩ := pipe_spec hrw
  rw [he]
  set k₁ := k.setPipes (Function.update k.pipes (pipeAddr p) ⟨1, 1, none, none, true⟩) with hk₁
  set k₂ := k₁.setFile k.current r (some (pipeFile (pipeAddr p) false)) with hk₂
  set k₃ := k₂.setFile k.current w (some (pipeFile (pipeAddr p) true)) with hk₃
  have hr₁ : (k₁.tasks k.current).fd r = none := hr
  have hw₂ : (k₂.tasks k.current).fd w = none := by
    rw [hk₂, setFile_fd, if_pos rfl, Function.update_of_ne hne.symm]
    exact hw
  refine ⟨p, hp, rfl, fun a e => ?_, fun j => ?_, fun j hj => ?_⟩
  · have h₁ := holders_setFile k₁ k.current r (some (pipeFile (pipeAddr p) false)) a e
    have h₂ := holders_setFile k₂ k.current w (some (pipeFile (pipeAddr p) true)) a e
    have h₀ : k₁.holders a e = k.holders a e := rfl
    rw [hr₁, one_none, one_pipeFile, h₀] at h₁
    rw [hw₂, one_none, one_pipeFile] at h₂
    rw [← hk₂] at h₁
    rw [← hk₃] at h₂
    omega
  · rw [hk₃, setFile_state, hk₂, setFile_state]
    rfl
  · rw [hk₃, setFile_fd, if_neg hj, hk₂, setFile_fd, if_neg hj]
    rfl

/-- **`pipe`.** -/
theorem Ends.pipe (h : Ends k) (hc : ¬(k.tasks k.current).state.Ended)
    (hok : k.pipe.1.isSome) : Ends k.pipe.2 := by
  obtain ⟨p, hp, hpipes, hhold, hstate, hfd⟩ := pipe_effect hok
  have hnot : ¬0 < k.holders (pipeAddr p) false + k.holders (pipeAddr p) true :=
    fun hh => h.counted.freePipe hp (held_iff.mpr hh)
  constructor
  · intro a ha hh
    rw [held_iff, hhold, hhold] at hh
    rw [hhold, hhold, hpipes]
    by_cases hpa : pipeAddr p = a
    · subst hpa
      have hz₁ : k.holders (pipeAddr p) false = 0 := by omega
      have hz₂ : k.holders (pipeAddr p) true = 0 := by omega
      rw [Function.update_self, hz₁, hz₂]
      simp
    · rw [Function.update_of_ne (Ne.symm hpa)]
      simp only [hpa, false_and, if_false, add_zero] at hh ⊢
      exact h.counted a ha (held_iff.mpr hh)
  · intro j hj fd
    rw [hstate] at hj
    have hjc : j ≠ k.current := fun he => hc (he ▸ hj)
    rw [hfd j hjc]
    exact h.shut j hj fd

/-! ## Processes come and go -/

/-- All descriptors that are copied are counted. -/
theorem fdShareAll_apply (pipes : ℕ → Pipe) (fd : Fin kMaxFd → Option OFile) (ha : a ≠ 0) :
    fdShareAll pipes fd a = { pipes a with
      readers := (pipes a).readers + inRow (OFile.isEnd a false) fd
      writers := (pipes a).writers + inRow (OFile.isEnd a true) fd } := by
  have hfold : ∀ (l : List (Fin kMaxFd)) (pipes : ℕ → Pipe),
      l.foldl (fun pipes i => (fd i).elim pipes (fdShare pipes)) pipes a = { pipes a with
        readers := (pipes a).readers + (l.map fun i => one (OFile.isEnd a false) (fd i)).sum
        writers := (pipes a).writers + (l.map fun i => one (OFile.isEnd a true) (fd i)).sum } := by
    intro l
    induction l with
    | nil => exact fun _ => rfl
    | cons i l ih =>
      intro pipes
      rw [List.foldl_cons, ih, List.map_cons, List.map_cons, List.sum_cons, List.sum_cons]
      have hone : (fd i).elim pipes (fdShare pipes) a = { pipes a with
          readers := (pipes a).readers + one (OFile.isEnd a false) (fd i)
          writers := (pipes a).writers + one (OFile.isEnd a true) (fd i) } := by
        cases fd i with
        | none => rfl
        | some f => exact fdShare_apply pipes f ha
      rw [hone]
      simp only [add_assoc]
  rw [fdShareAll, hfold, inRow, inRow, Fin.sum_univ_def, Fin.sum_univ_def]

/-- What the row of a new process adds. -/
theorem holders_handDown {slot : Fin kMaxTask} {t : Task} (hrow : (k.tasks slot).fd = fun _ => none)
    (a : ℕ) (w : Bool) : ((k.setTask slot t).setPipes (fdShareAll k.pipes t.fd)).holders a w
      = k.holders a w + inRow (OFile.isEnd a w) t.fd := by
  have he : (fun j => (((k.setTask slot t).setPipes (fdShareAll k.pipes t.fd)).tasks j).fd)
      = Function.update (fun j => (k.tasks j).fd) slot t.fd := by
    funext j
    rw [setPipes_tasks, setTask_tasks, Function.update_apply, Function.update_apply]
    split
    · rfl
    · rfl
  have hcount := count_row (OFile.isEnd a w) (fun j => (k.tasks j).fd) slot t.fd
  rw [hrow, inRow_none, add_zero] at hcount
  rw [holders, he]
  exact hcount

/-- **A new process** has the descriptors of another. -/
theorem Counted.handDown (h : Counted k) {slot : Fin kMaxTask} {t : Task}
    (hrow : (k.tasks slot).fd = fun _ => none) (hfd : t.fd = (k.tasks i).fd) :
    Counted ((k.setTask slot t).setPipes (fdShareAll k.pipes t.fd)) := by
  intro a ha hh
  have hhold := holders_handDown (t := t) hrow a
  -- A pipe the child holds its parent holds.
  have hle : ∀ w, inRow (OFile.isEnd a w) t.fd ≤ k.holders a w := fun w => by
    rw [hfd]
    exact inRow_le_count (OFile.isEnd a w) (fun j => (k.tasks j).fd) i
  have h₁ := hle false
  have h₂ := hle true
  rw [held_iff, hhold, hhold] at hh
  obtain ⟨hr, hw, ho⟩ := h a ha (held_iff.mpr (by omega))
  rw [setPipes_pipes, fdShareAll_apply k.pipes t.fd ha, hhold, hhold, ← hr, ← hw]
  exact ⟨rfl, rfl, ho⟩

/-- **`fd_close_all`** leaves no descriptor of the process, and those of the others. -/
theorem fdCloseAll_fd (k : Kernel H) (i : Fin kMaxTask) :
    (∀ fd, ((k.fdCloseAll i).tasks i).fd fd = none) ∧
      ∀ j, j ≠ i → ((k.fdCloseAll i).tasks j).fd = (k.tasks j).fd := by
  have hfold : ∀ (l : List (Fin kMaxFd)) (k : Kernel H),
      (∀ fd, fd ∈ l ∨ (k.tasks i).fd fd = none → ((l.foldl (fun k fd => if ((k.tasks i).fd
        fd).isSome then k.closeIn i fd else k) k).tasks i).fd fd = none) ∧
      ∀ j, j ≠ i → ((l.foldl (fun k fd => if ((k.tasks i).fd fd).isSome then k.closeIn i fd
        else k) k).tasks j).fd = (k.tasks j).fd := by
    intro l
    induction l with
    | nil => exact fun k => ⟨fun fd hfd => hfd.resolve_left List.not_mem_nil, fun _ _ => rfl⟩
    | cons c l ih =>
      intro k
      have hstep : (∀ fd, fd = c ∨ (k.tasks i).fd fd = none →
            ((if ((k.tasks i).fd c).isSome then k.closeIn i c else k).tasks i).fd fd = none) ∧
          ∀ j, j ≠ i → ((if ((k.tasks i).fd c).isSome then k.closeIn i c else k).tasks j).fd
            = (k.tasks j).fd := by
        split
        · refine ⟨fun fd hfd => ?_, fun j hj => funext fun fd => ?_⟩
          · rw [closeIn_fd]
            split
            · rfl
            · next hne => exact hfd.resolve_left fun he => hne ⟨rfl, he⟩
          · rw [closeIn_fd, if_neg fun he => hj he.1]
        · next hc =>
          refine ⟨fun fd hfd => ?_, fun _ _ => rfl⟩
          rcases hfd with rfl | hfd
          · exact Option.not_isSome_iff_eq_none.mp hc
          · exact hfd
      obtain ⟨h₂, h₃⟩ := hstep
      obtain ⟨g₂, g₃⟩ := ih (if ((k.tasks i).fd c).isSome then k.closeIn i c else k)
      rw [List.foldl_cons]
      refine ⟨fun fd hfd => g₂ fd ?_, fun j hj => (g₃ j hj).trans (h₃ j hj)⟩
      rcases hfd with hfd | hfd
      · rcases List.mem_cons.mp hfd with rfl | hfd
        · exact Or.inr (h₂ fd (Or.inl rfl))
        · exact Or.inl hfd
      · exact Or.inr (h₂ fd (Or.inr hfd))
  obtain ⟨h₂, h₃⟩ := hfold (List.finRange kMaxFd) k
  exact ⟨fun fd => h₂ fd (Or.inl (List.mem_finRange fd)), h₃⟩

theorem Stands.fdCloseAll {I : Kernel H → Prop} (hI : Stands I) (h : I k) (i : Fin kMaxTask) :
    I (k.fdCloseAll i) := by
  rw [Kernel.fdCloseAll]
  generalize List.finRange kMaxFd = l
  induction l generalizing k with
  | nil => exact h
  | cons c l ih =>
    rw [List.foldl_cons]
    split
    · exact ih (hI.closeIn i c h)
    · exact ih h

theorem stands_counted : Stands (Counted (H := H)) where
  same hs h := h.same hs
  closeIn i fd h := h.closeIn i fd
  putFd hfree hf h := h.putFd hfree hf
  handDown hrow hfd h := h.handDown hrow hfd

/-- **`fd_install`**, into a process that is there, and not of a last descriptor over itself. -/
theorem Ends.fdInstall (h : Ends k) {into : Fin kMaxTask} {childFd src : ℤ}
    (hi : ¬(k.tasks into).state.Ended)
    (hself : into = k.current → childFd = src → ∀ fd f, fdOf src = some fd →
      (k.tasks k.current).fd fd = some f → ¬k.Last f) :
    Ends (k.fdInstall into childFd src).2 := by
  rcases fdInstall_eq k into childFd src with he | ⟨child, fd, f, hchild, hsrc, hf, he⟩ <;> rw [he]
  · exact h
  · refine ((h.upheld.closeIn stands_counted into child).putFd stands_counted
      (fun he => hi ((wakes_closeIn k into child).sameEnded _ he)) ?_ ?_).ends
    · rw [closeIn_fd, if_pos ⟨rfl, rfl⟩]
    · rintro g ⟨⟩ ht ha
      by_cases hsame : into = k.current ∧ child = fd
      · obtain ⟨rfl, rfl⟩ := hsame
        have hlast := hself rfl ((fdOf_eq_some.mp hchild).trans (fdOf_eq_some.mp hsrc).symm) child
          f hsrc hf
        have hheld : k.Held f.n.internal := ⟨k.current, child, f, hf, ht, rfl⟩
        have hdrop : ∀ w, (k.closeIn k.current child).holders f.n.internal w
            + one (OFile.isEnd f.n.internal w) (some f) = k.holders f.n.internal w := fun w => by
          rw [← hf]
          exact holders_closeIn k k.current child f.n.internal w
        have hone : one (OFile.isEnd f.n.internal false) (some f)
            + one (OFile.isEnd f.n.internal true) (some f) = 1 := by
          rw [one_isEnd, one_isEnd]
          by_cases hw : f.flags &&& kPipeWriteEnd ≠ 0
          · rw [if_neg (by simp [hw]), if_pos ⟨ht, rfl, decide_eq_true hw⟩]
          · rw [if_pos ⟨ht, rfl, decide_eq_false hw⟩, if_neg (by simp [hw])]
        have h₁ := hdrop false
        have h₂ := hdrop true
        have h₃ := held_iff.mp hheld
        have h₄ : k.holders f.n.internal false + k.holders f.n.internal true ≠ 1 :=
          fun he => hlast ⟨ht, he⟩
        exact held_iff.mpr (by omega)
      · refine held_closeIn ⟨k.current, fd, f, ?_, hf, ht, rfl⟩
        rintro he
        obtain ⟨rfl, rfl⟩ := Prod.mk.inj he
        exact hsame ⟨rfl, rfl⟩

section

variable {I : Kernel H → Prop} (hI : Stands I)

include hI

theorem Upheld.handDown (h : Upheld I k) {slot : Fin kMaxTask} {t : Task}
    (hslot : (k.tasks slot).state = .free) (ht : ¬t.state.Ended) (hfd : t.fd = (k.tasks i).fd) :
    Upheld I ((k.setTask slot t).setPipes (fdShareAll k.pipes t.fd)) := by
  have hrow : (k.tasks slot).fd = fun _ => none := funext fun fd => h.shut slot (Or.inr hslot) fd
  refine ⟨hI.handDown hrow hfd h.inv, fun j hj fd => ?_⟩
  rw [setPipes_tasks, setTask_tasks, Function.update_apply] at hj ⊢
  split at hj
  · exact absurd hj ht
  · next hne =>
    rw [if_neg hne]
    exact h.shut j hj fd

theorem Upheld.setMmu (h : Upheld I k) (m : Mmu H) : Upheld I (k.setMmu m) :=
  h.same hI ⟨fun _ => rfl, fun _ => rfl, fun _ => rfl, fun _ => rfl⟩ fun _ => id

/-- A slot stays free, and what is in it has no descriptors. -/
theorem Upheld.refuse (h : Upheld I k) {slot : Fin kMaxTask} {t : Task} (m : Mmu H)
    (hslot : (k.tasks slot).state = .free) (hfd : t.fd = fun _ => none) :
    Upheld I ((k.setMmu m).setTask slot t) := by
  refine (h.setMmu hI m).same hI (.setTask ?_) fun j hj => ?_
  · rw [hfd]
    exact (funext fun fd => h.shut slot (Or.inr hslot) fd).symm
  · rw [setTask_tasks, Function.update_apply] at hj
    split at hj
    · next he =>
      rw [he]
      exact Or.inr hslot
    · exact hj

section

variable [PageAlloc H]

/-- **`fork_user`.** -/
theorem Upheld.forkUser (h : Upheld I k) (frame : Registers) : Upheld I (k.forkUser frame).2 := by
  have hpurge : ∀ pid, Upheld I (k.purgeNotes pid) := fun pid =>
    h.same hI ⟨fun _ => rfl, fun _ => rfl, fun _ => rfl, fun _ => rfl⟩ fun _ => id
  have hspec := forkUser_spec k frame
  generalize k.forkUser frame = r at hspec ⊢
  cases hspec with
  | refused h' => exact h
  | noSpace hslot hspace => exact (hpurge _).refuse hI _ (freeSlot_eq_some hslot).2 rfl
  | noShare hslot hspace hsp hshare => exact (hpurge _).refuse hI _ (freeSlot_eq_some hslot).2 rfl
  | noStack hslot hspace hsp hshare hstack =>
    exact (hpurge _).refuse hI _ (freeSlot_eq_some hslot).2 rfl
  | @forked slot sp kstack m m' m'' hslot hspace hsp hshare hstack hk =>
    exact ((hpurge _).setMmu hI m'').handDown hI (t := childOf (k.tasks k.current) slot sp kstack
      frame) (i := k.current)
      (freeSlot_eq_some hslot).2 (by rintro (he | he) <;> cases he) rfl

/-- **`create`.** -/
theorem Upheld.create (h : Upheld I k) (name : List UInt8) : Upheld I (k.create name).2 := by
  rw [Kernel.create]
  split
  · exact h
  next slot hslot =>
  have hfree := (freeSlot_eq_some hslot).2
  rcases k.mmu.spaceCreate with ⟨sp, m⟩
  dsimp only
  split
  · exact h.refuse hI m hfree rfl
  rcases m.kframeAllocN (kKernelAlloc / 4096) with ⟨kstack, m⟩
  dsimp only
  split
  · exact h.refuse hI _ hfree rfl
  have hframes : (giveFrames m (freshTask sp kstack)).2.1.fd = fun _ => none := by
    simp only [giveFrames]
    split
    · rfl
    · rfl
  generalize giveFrames m (freshTask sp kstack) = r at hframes ⊢
  split
  · exact h.refuse hI _ hfree hframes
  · exact (h.setMmu hI r.2.2).handDown hI (t := createdTask (k.tasks k.current) r.2.1 slot name)
      (i := k.current) hfree (by rintro (he | he) <;> cases he) rfl

end

/-- **The end of a process**, in `exit` and in `reap`. -/
theorem Upheld.dies (h : Upheld I k) {t : Task} (hfd : t.fd = (k.tasks i).fd) :
    Upheld I (((k.setTask i t).fdCloseAll i).announce i) := by
  have hset : SameFds k (k.setTask i t) := .setTask hfd
  obtain ⟨hnone, hother⟩ := fdCloseAll_fd (k.setTask i t) i
  have hclose : Upheld I ((k.setTask i t).fdCloseAll i) := by
    refine ⟨hI.fdCloseAll (hI.same hset h.inv) i, fun j hj fd => ?_⟩
    by_cases hji : j = i
    · rw [hji]
      exact hnone fd
    · have hj' := (wakes_fdCloseAll (k.setTask i t) i).sameEnded j hj
      rw [setTask_tasks, Function.update_of_ne hji] at hj'
      rw [hother j hji, hset.fd]
      exact h.shut j hj' fd
  refine hclose.same hI (sameFds_announce _ i) fun j hj => ?_
  have hj' := (wakes_announce ((k.setTask i t).fdCloseAll i) i).sameEnded j hj
  rwa [(noted_eq _ i j).2.2.1] at hj'

/-- **`exit`.** -/
theorem Upheld.exit (h : Upheld I k) (code : UInt32) : Upheld I (k.exit code) := by
  set t : Task := { k.tasks k.current with
    exitCode := code, state := .zombie
    signal := if (k.tasks k.current).state ≠ .killed then kSigNone
      else (k.tasks k.current).signal } with ht
  have hd : Upheld I (((k.setTask k.current t).fdCloseAll k.current).announce k.current) :=
    h.dies hI rfl
  refine hd.same hI (.setTask rfl) (Wakes.sameEnded ?_)
  exact .setTask ⟨rfl, rfl, rfl, rfl⟩

section

variable [PageAlloc H]

theorem Upheld.destroy (h : Upheld I k) (hi : (k.tasks i).state.Ended) :
    Upheld I (k.destroy i) := by
  rw [Kernel.destroy]
  split
  · exact h
  · refine h.same hI ⟨fun j => ?_, fun _ => rfl, fun _ => rfl, fun _ => rfl⟩ fun j hj => ?_
    · rw [setTask_tasks, Function.update_apply]
      split
      · next hj => rw [hj]
      · rfl
    · rw [setTask_tasks, Function.update_apply] at hj
      split at hj
      · next he =>
        rw [he]
        exact hi
      · exact hj

/-- **`reap`.** -/
theorem Upheld.reap (h : Upheld I k) (hr : k.reap = some k') : Upheld I k' := by
  have hslot : ∀ (k : Kernel H), Upheld I k → ∀ i, Upheld I (k.reapSlot i) := by
    intro k hk i
    have hb : Upheld I (if (k.tasks i).state = .killed then k.bury i else k) := by
      split
      · exact hk.dies hI (t :=
          { k.tasks i with exitCode := 128 + (k.tasks i).signal, state := .zombie })
          rfl
      · exact hk
    rw [Kernel.reapSlot]
    generalize (if (k.tasks i).state = .killed then k.bury i else k) = k₁ at hb ⊢
    split
    · exact hb
    · next hne => exact hb.destroy hI (Or.inl (not_not.mp (not_or.mp hne).1))
  have hfold : ∀ (l : List (Fin kMaxTask)) (k : Kernel H), Upheld I k →
      Upheld I (l.foldl Kernel.reapSlot k) := by
    intro l
    induction l with
    | nil => exact fun _ hk => hk
    | cons i l ih => exact fun k hk => ih _ (hslot k hk i)
  rw [Kernel.reap] at hr
  split at hr
  · cases hr
  · rw [← Option.some.inj hr]
    exact hfold _ k h

end

end

/-! ## Runs -/

/-- What processes do with descriptors, and what happens to their tables. -/
inductive FdOp (H : Type) where
  | pipe
  | dup (old : ℤ)
  | dup2 (old nw : ℤ)
  | fdInstall (into : Fin kMaxTask) (childFd src : ℤ)
  | fdClose (fd : ℤ)
  /-- A file, a device or a window is opened. -/
  | opens (fd : Fin kMaxFd) (f : OFile)
  | forkUser (frame : Registers)
  | create (name : List UInt8)
  | exit (code : UInt32)
  | reap
  /-- Anything else. -/
  | other (k' : Kernel H)

/-- A call that is made is made by a process that has not ended. -/
def FdAllowed (k : Kernel H) : FdOp H → Prop
  | .pipe => ¬(k.tasks k.current).state.Ended ∧ k.pipe.1.isSome
  | .opens fd f => ¬(k.tasks k.current).state.Ended ∧ (k.tasks k.current).fd fd = none ∧
      f.n.type ≠ .fifo
  | .reap => (k.tasks k.current).state ≠ .killed
  | .other k' => SameFds k k' ∧ SameEnded k k'
  | _ => ¬(k.tasks k.current).state.Ended

/-- What `fd_install` does not look at: that the process is still there, and that the descriptor is
not the one it copies. -/
def FdSafe (k : Kernel H) : FdOp H → Prop
  | .fdInstall into childFd src => ¬(k.tasks into).state.Ended ∧
      (into = k.current → childFd = src → ∀ fd f, fdOf src = some fd →
        (k.tasks k.current).fd fd = some f → ¬k.Last f)
  | _ => True

variable [PageAlloc H]

/-- One operation; `none` is a panic. -/
def fdStep (k : Kernel H) : FdOp H → Option (Kernel H)
  | .pipe => some k.pipe.2
  | .dup old => some (k.dup old).2
  | .dup2 old nw => some (k.dup2 old nw).2
  | .fdInstall into childFd src => some (k.fdInstall into childFd src).2
  | .fdClose fd => some (k.closeFd fd)
  | .opens fd f => some (k.setFile k.current fd (some f))
  | .forkUser frame => some (k.forkUser frame).2
  | .create name => some (k.create name).2
  | .exit code => some (k.exit code)
  | .reap => k.reap
  | .other k' => some k'

/-- The states that operations lead to, when each is one that `ok` permits. -/
inductive FdReaches (ok : Kernel H → FdOp H → Prop) (k₀ : Kernel H) : Kernel H → Prop where
  | refl : FdReaches ok k₀ k₀
  | step {k k' : Kernel H} {op : FdOp H} (hr : FdReaches ok k₀ k) (ha : k.FdAllowed op)
      (hs : ok k op) (hst : k.fdStep op = some k') : FdReaches ok k₀ k'

/-- **One operation.** -/
theorem Ends.step {op : FdOp H} (h : Ends k) (ha : k.FdAllowed op) (hs : k.FdSafe op)
    (hst : k.fdStep op = some k') : Ends k' := by
  cases op with
  | pipe =>
    obtain rfl := Option.some.inj hst
    exact h.pipe ha.1 ha.2
  | dup old =>
    obtain rfl := Option.some.inj hst
    exact (h.upheld.dup2 stands_counted ha old _).ends
  | dup2 old nw =>
    obtain rfl := Option.some.inj hst
    exact (h.upheld.dup2 stands_counted ha old nw).ends
  | fdInstall into childFd src =>
    obtain rfl := Option.some.inj hst
    exact h.fdInstall hs.1 hs.2
  | fdClose fd =>
    obtain rfl := Option.some.inj hst
    exact (h.upheld.closeFd stands_counted fd).ends
  | opens fd f =>
    obtain rfl := Option.some.inj hst
    rw [setFile_eq_putFd k.current fd ha.2.2]
    exact (h.upheld.putFd stands_counted ha.1 ha.2.1
      fun g hg ht => absurd (Option.some.inj hg ▸ ht) ha.2.2).ends
  | forkUser frame =>
    obtain rfl := Option.some.inj hst
    exact (h.upheld.forkUser stands_counted frame).ends
  | create name =>
    obtain rfl := Option.some.inj hst
    exact (h.upheld.create stands_counted name).ends
  | exit code =>
    obtain rfl := Option.some.inj hst
    exact (h.upheld.exit stands_counted code).ends
  | reap => exact (h.upheld.reap stands_counted hst).ends
  | other k₁ =>
    obtain rfl := Option.some.inj hst
    exact (h.upheld.same stands_counted ha.1 ha.2).ends

omit [PageAlloc H] in
theorem ends_boot (m : Mmu H) (kstack : ℕ) (kernCode : UInt32) :
    Ends (Machine.boot m kstack kernCode).k := by
  have hnone : ∀ i fd, ((Machine.boot m kstack kernCode).k.tasks i).fd fd = none := fun i fd => by
    change ((Function.update (fun _ => Task.zero) 0 _ : Fin kMaxTask → Task) i).fd fd = none
    rw [Function.update_apply]
    split
    · rfl
    · rfl
  refine ⟨fun a _ hh => ?_, fun i _ fd => hnone i fd⟩
  obtain ⟨i, fd, f, hf, -⟩ := hh
  rw [hnone] at hf
  cases hf

/-- **The ends of a pipe.** After any operations that are safe, for every pipe there is a descriptor
for, the counts are those of the open descriptors of all processes, so that a reader sees the end of
the file just when no end to write to is left; the pipe is open, and `pipe` takes another one. -/
theorem pipe_ends {m : Mmu H} {kstack : ℕ} {kernCode : UInt32}
    (hr : FdReaches FdSafe (Machine.boot m kstack kernCode).k k) :
    (∀ a, a ≠ 0 → k.Held a → (k.pipes a).readers = k.holders a false ∧
        (k.pipes a).writers = k.holders a true ∧ (k.pipes a).opened = true ∧
        ((k.pipes a).writers = 0 ↔ ∀ i fd f, (k.tasks i).fd fd = some f → f.isEnd a true = false)) ∧
      (∀ i, (k.tasks i).state.Ended → ∀ fd, (k.tasks i).fd fd = none) ∧
      ∀ p, k.freePipe = some p → ¬k.Held (pipeAddr p) := by
  have h : Ends k := by
    induction hr with
    | refl => exact ends_boot m kstack kernCode
    | step _ ha hs hst ih => exact ih.step ha hs hst
  refine ⟨fun a ha hh => ?_, h.shut, fun p hp => h.counted.freePipe hp⟩
  obtain ⟨h₁, h₂, h₃⟩ := h.counted a ha hh
  refine ⟨h₁, h₂, h₃, ?_⟩
  rw [h₂]
  constructor
  · intro hz i fd f hf
    by_contra hne
    have : 0 < k.holders a true :=
      (count_pos _).mpr ⟨i, fd, f, hf, Bool.not_eq_false _ ▸ hne⟩
    omega
  · intro hno
    by_contra hne
    obtain ⟨i, fd, f, hf, hP⟩ := (count_pos _).mp (Nat.pos_of_ne_zero hne)
    rw [hno i fd f hf] at hP
    cases hP

/-- The first process has a pipe. -/
def piped : Kernel Pages.Bump := Machine.settled.k.pipe.2

/-- Its child has both ends too, and it closes the one to write to. -/
def pipedChild : Kernel Pages.Bump :=
  ((piped.forkUser { Registers.zero with cs := 0x1B }).2).closeFd 1

theorem pipe_ends_pipedChild : (pipedChild.pipes 1).readers = 2 ∧ (pipedChild.pipes 1).writers = 1 ∧
    (pipedChild.pipes 1).readers = pipedChild.holders 1 false ∧
    (pipedChild.pipes 1).writers = pipedChild.holders 1 true := by
  have h₁ : FdReaches FdSafe Machine.settled.k piped :=
    FdReaches.refl.step (show FdAllowed _ .pipe from ⟨by decide +kernel,
      by decide +kernel⟩) trivial rfl
  have h₂ : FdReaches FdSafe Machine.settled.k
      (piped.forkUser { Registers.zero with cs := 0x1B }).2 :=
    h₁.step (show FdAllowed _ (.forkUser _) from show ¬_ by decide +kernel) trivial rfl
  have h₃ : FdReaches FdSafe Machine.settled.k pipedChild :=
    h₂.step (show FdAllowed _ (.fdClose 1) from show ¬_ by decide +kernel) trivial rfl
  have hheld : pipedChild.Held 1 :=
    ⟨0, 0, pipeFile 1 false, by decide +kernel, rfl, rfl⟩
  obtain ⟨hr, hw, -⟩ := (pipe_ends h₃).1 1 (by decide) hheld
  exact ⟨by decide +kernel, by decide +kernel, hr, hw⟩

/-- The end to read from is closed, and the other one is installed over itself. -/
def selfInstalled : Kernel Pages.Bump := ((piped.closeFd 0).fdInstall 0 1 1).2

/-- There is a descriptor, and its pipe is the next one that `pipe` takes. -/
theorem selfInstalled_taken :
    FdReaches (fun _ _ => True) Machine.settled.k selfInstalled ∧
      selfInstalled.Held 1 ∧ (selfInstalled.pipes 1).opened = false ∧
      selfInstalled.freePipe = some 0 ∧ pipeAddr 0 = 1 := by
  have h₁ : FdReaches (fun _ _ => True) Machine.settled.k piped :=
    FdReaches.refl.step (show FdAllowed _ .pipe from ⟨by decide +kernel,
      by decide +kernel⟩) trivial rfl
  have h₂ : FdReaches (fun _ _ => True) Machine.settled.k (piped.closeFd 0) :=
    h₁.step (show FdAllowed _ (.fdClose 0) from show ¬_ by decide +kernel) trivial rfl
  refine ⟨h₂.step (show FdAllowed _ (.fdInstall 0 1 1) from show ¬_ by decide +kernel) trivial rfl,
    ⟨0, 1, pipeFile 1 true, by decide +kernel, rfl, rfl⟩, by decide +kernel, by decide +kernel, rfl⟩

end Kernel

end Aurisys
