import Aurisys.Kernel.Balance
import Aurisys.Kernel.NoTrace
import Aurisys.Kernel.Table
import Mathlib.Data.Finset.Option
import Mathlib.Data.Multiset.OrderedMonoid

/-!
# What a process leaves behind

A child takes pages for its space, its directories and its tables, for its stack, and for the group
it makes when it has a child of its own. When it is reaped all of this goes back. What does not go
back is a page that was copied for it by a fault: `destroy` gives back the image of a process that
owns one, a child owns none, and the tables are given back without a look at what they map.

So the account of a child and its descendants comes out even exactly when none of them stored to a
page it shared. Nothing else matters: not the order in which they end, nor what the parent and the
other processes do in the meantime.

## Main definitions

* `kernelHolds` — the blocks that the processes in the table hold
* `Settled` — these blocks are out, each once, and the groups are counted right
* `Deed`, `Deed.Step`, `Runs` — what the processes do
* `GivesBack` — nothing is out that was not, but for what the others hold

## Main results

* `Books.step`, `Books.runs`
* `child_gives_back_iff`
-/

namespace Aurisys

open Paging Pages PageAlloc UsageStats Mmu

namespace Kernel

variable {H : Type} {k k' k'' : Kernel H} {i j : Fin kMaxTask} {L : Multiset ℕ} {rest : Set ℕ}
  {base : ℕ}

/-! ## What the processes hold -/

/-- The spaces of the processes. The one the kernel was started with is not in the heap. -/
def spaceSet (k : Kernel H) : Finset ℕ :=
  ((Finset.univ.filter fun i => (k.tasks i).state ≠ .free).image fun i => (k.tasks i).sp).filter
    fun s => s ≠ 0 ∧ s ≠ k.mmu.boot

/-- The kernel stack of a process, and its image when that is its own. -/
def taskPages (t : Task) : List ℕ :=
  if t.state = .free then []
  else (if t.kstack ≠ 0 then [t.kstack - kKernelStackBytes] else []) ++
    if t.ownsFrames then [t.heapBase, t.codeBase, t.stackBase].filter (· ≠ 0) else []

/-- All that the processes hold. -/
def kernelHolds (k : Kernel H) : Multiset ℕ :=
  holds k.mmu k.spaceSet (groupSet k.mmu k.spaceSet) + ∑ i, (taskPages (k.tasks i) : Multiset ℕ)

theorem mem_spaceSet {s : ℕ} : s ∈ k.spaceSet ↔
    (∃ i, (k.tasks i).state ≠ .free ∧ (k.tasks i).sp = s) ∧ s ≠ 0 ∧ s ≠ k.mmu.boot := by
  simp [spaceSet]

/-! ## What leaves the holdings alone -/

/-- The entries agree in what the process holds. -/
structure SameHome (t t' : Task) : Prop where
  sp : t'.sp = t.sp
  kstack : t'.kstack = t.kstack
  owns : t'.ownsFrames = t.ownsFrames
  heap : t'.heapBase = t.heapBase
  code : t'.codeBase = t.codeBase
  stack : t'.stackBase = t.stackBase
  free : t'.state = .free ↔ t.state = .free

theorem SameHome.refl (t : Task) : SameHome t t := ⟨rfl, rfl, rfl, rfl, rfl, rfl, Iff.rfl⟩

theorem SameHome.trans {t t' t'' : Task} (h : SameHome t t') (h' : SameHome t' t'') :
    SameHome t t'' :=
  ⟨h'.sp.trans h.sp, h'.kstack.trans h.kstack, h'.owns.trans h.owns, h'.heap.trans h.heap,
    h'.code.trans h.code, h'.stack.trans h.stack, h'.free.trans h.free⟩

theorem SameHome.taskPages {t t' : Task} (h : SameHome t t') : taskPages t' = taskPages t := by
  simp only [Kernel.taskPages, h.kstack, h.owns, h.heap, h.code, h.stack, h.free]

/-- Nothing is taken or given back: the spaces, the groups and the processes hold what they did.
What is in memory, and what the tables map, may have changed. -/
structure Homes (k k' : Kernel H) : Prop where
  /-- The pages are as they were. -/
  mmu : SamePages k.mmu k'.mmu
  /-- So is what each process holds. -/
  task : ∀ i, SameHome (k.tasks i) (k'.tasks i)

theorem Homes.refl (k : Kernel H) : Homes k k := ⟨.refl _, fun _ => .refl _⟩

theorem Homes.trans (h : Homes k k') (h' : Homes k' k'') : Homes k k'' :=
  ⟨h.mmu.trans h'.mmu, fun i => (h.task i).trans (h'.task i)⟩

theorem Homes.foldl {β : Type} {f : Kernel H → β → Kernel H} (h : ∀ k b, Homes k (f k b))
    (k : Kernel H) (l : List β) : Homes k (l.foldl f k) := by
  induction l generalizing k with
  | nil => exact .refl k
  | cons b l ih => exact (h k b).trans (ih _)

theorem Homes.setTask {t : Task} (h : SameHome (k.tasks i) t) : Homes k (k.setTask i t) := by
  refine ⟨.refl _, fun j => ?_⟩
  rw [setTask_tasks, Function.update_apply]
  split
  · next hj => exact hj ▸ h
  · exact .refl _

theorem Homes.setPipes (k : Kernel H) (pipes : ℕ → Pipe) : Homes k (k.setPipes pipes) :=
  ⟨.refl _, fun _ => .refl _⟩

theorem homes_purgeNotes (k : Kernel H) (pid : ℕ) : Homes k (k.purgeNotes pid) :=
  ⟨.refl _, fun _ => ⟨rfl, rfl, rfl, rfl, rfl, rfl, Iff.rfl⟩⟩

theorem homes_unblock (k : Kernel H) (i : Fin kMaxTask) : Homes k (k.unblock i) := by
  rw [unblock]
  split
  · next hb =>
    refine .setTask ⟨rfl, rfl, rfl, rfl, rfl, rfl, ?_⟩
    rw [hb]
    exact iff_of_false TaskState.noConfusion TaskState.noConfusion
  · exact .setTask ⟨rfl, rfl, rfl, rfl, rfl, rfl, Iff.rfl⟩

theorem homes_elim_unblock (k : Kernel H) (o : Option (Fin kMaxTask)) :
    Homes k (o.elim k k.unblock) := by
  cases o with
  | none => exact .refl k
  | some i => exact homes_unblock k i

theorem homes_fdUnshare (k : Kernel H) (f : OFile) : Homes k (k.fdUnshare f) := by
  rw [fdUnshare]
  split
  · exact .refl k
  · exact ((homes_elim_unblock k _).trans (homes_elim_unblock _ _)).trans (.setPipes _ _)

theorem homes_closeIn (k : Kernel H) (i : Fin kMaxTask) (fd : Fin kMaxFd) :
    Homes k (k.closeIn i fd) := by
  have h : Homes k (((k.tasks i).fd fd).elim k k.fdUnshare) := by
    cases (k.tasks i).fd fd with
    | none => exact .refl k
    | some f => exact homes_fdUnshare k f
  exact h.trans (.setTask ⟨rfl, rfl, rfl, rfl, rfl, rfl, Iff.rfl⟩)

theorem homes_fdCloseAll (k : Kernel H) (i : Fin kMaxTask) : Homes k (k.fdCloseAll i) := by
  refine Homes.foldl (fun k fd => ?_) k _
  split
  · exact homes_closeIn k i fd
  · exact .refl k

theorem homes_announce (k : Kernel H) (i : Fin kMaxTask) : Homes k (k.announce i) := by
  rw [announce]
  dsimp only
  split
  · exact .refl k
  · split
    · exact .refl k
    · split
      · exact .refl k
      · split
        · refine Homes.trans ?_ (homes_unblock _ _)
          exact .setTask ⟨rfl, rfl, rfl, rfl, rfl, rfl, Iff.rfl⟩
        · exact .setTask ⟨rfl, rfl, rfl, rfl, rfl, rfl, Iff.rfl⟩

/-- **`exit`** gives nothing back yet. -/
theorem homes_exit (hs : (k.tasks k.current).state ≠ .free) (code : UInt32) :
    Homes k (k.exit code) := by
  let t : Task := { k.tasks k.current with
    exitCode := code, state := .zombie
    signal := if (k.tasks k.current).state ≠ .killed then kSigNone else (k.tasks k.current).signal }
  have h1 : Homes k (k.setTask k.current t) :=
    .setTask ⟨rfl, rfl, rfl, rfl, rfl, rfl, iff_of_false TaskState.noConfusion hs⟩
  let k₁ := ((k.setTask k.current t).fdCloseAll k.current).announce k.current
  have h2 : Homes k k₁ := (h1.trans (homes_fdCloseAll _ _)).trans (homes_announce _ _)
  have h3 : Homes k₁ (k₁.setTask k.current { k₁.tasks k.current with inSyscall := true }) :=
    .setTask ⟨rfl, rfl, rfl, rfl, rfl, rfl, Iff.rfl⟩
  exact h2.trans h3

/-- A process is switched to: the tables that the processor walks are others, and no page moves. -/
theorem homes_switchTo (hi : (k.tasks i).state = .ready) : Homes k (k.switchTo i) := by
  let k₁ := if (k.tasks k.current).state = .running then
    k.setTask k.current { k.tasks k.current with state := .ready } else k
  have h1 : Homes k k₁ := by
    change Homes k (if (k.tasks k.current).state = .running then
      k.setTask k.current { k.tasks k.current with state := .ready } else k)
    split
    · next hr =>
      refine .setTask ⟨rfl, rfl, rfl, rfl, rfl, rfl, ?_⟩
      rw [hr]
      exact iff_of_false TaskState.noConfusion TaskState.noConfusion
    · exact .refl k
  have hi₁ : (k₁.tasks i).state ≠ .free := by
    rw [ne_eq, (h1.task i).free, hi]
    exact TaskState.noConfusion
  let t : Task := { k₁.tasks i with state := .running, quantum := kQuantum }
  let t' := if !t.inSyscall && t.regs.fromUser then delivered t else t
  have ht : SameHome (k₁.tasks i) t :=
    ⟨rfl, rfl, rfl, rfl, rfl, rfl, iff_of_false TaskState.noConfusion hi₁⟩
  have ht' : SameHome t t' := by
    change SameHome t (if !t.inSyscall && t.regs.fromUser then delivered t else t)
    split
    · obtain ⟨r, pending, mask, saved, active, hd⟩ := delivered_eq t
      rw [hd]
      exact ⟨rfl, rfl, rfl, rfl, rfl, rfl, Iff.rfl⟩
    · exact .refl t
  have hmmu : SamePages k₁.mmu (k₁.mmu.spaceSwitch t'.sp) := by
    rw [Mmu.spaceSwitch]
    split
    · exact .refl _
    · exact ⟨rfl, rfl, rfl, fun _ => .refl _⟩
  let k₂ := k₁.setMmu (k₁.mmu.spaceSwitch t'.sp)
  have h2 : Homes k₁ k₂ := ⟨hmmu, fun _ => .refl _⟩
  have h3 : Homes k₂ (k₂.setTask i t') := .setTask (ht.trans ht')
  exact (h1.trans h2).trans ⟨h3.mmu, h3.task⟩

theorem homes_bury (hs : (k.tasks i).state ≠ .free) : Homes k (k.bury i) := by
  let t : Task := { k.tasks i with exitCode := 128 + (k.tasks i).signal, state := .zombie }
  have h1 : Homes k (k.setTask i t) :=
    .setTask ⟨rfl, rfl, rfl, rfl, rfl, rfl, iff_of_false TaskState.noConfusion hs⟩
  exact (h1.trans (homes_fdCloseAll _ i)).trans (homes_announce _ i)

theorem homes_signalTask (k : Kernel H) (pid : ℕ) (sig : UInt32) :
    Homes k (k.signalTask pid sig).2 := by
  rw [signalTask]
  split
  · exact .refl k
  · next i hi =>
    have hs : (k.tasks i).state ≠ .free := (find_eq_some hi).1
    dsimp only
    split
    · exact .refl k
    · split
      · split
        · refine Homes.trans ?_ (homes_unblock _ _)
          exact .setTask ⟨rfl, rfl, rfl, rfl, rfl, rfl, Iff.rfl⟩
        · exact .setTask ⟨rfl, rfl, rfl, rfl, rfl, rfl, Iff.rfl⟩
      · exact .setTask ⟨rfl, rfl, rfl, rfl, rfl, rfl,
          iff_of_false TaskState.noConfusion hs⟩

theorem Homes.spaceSet (h : Homes k k') : k'.spaceSet = k.spaceSet := by
  ext s
  rw [mem_spaceSet, mem_spaceSet, h.mmu.boot]
  refine and_congr_left fun _ => exists_congr fun i => ?_
  rw [(h.task i).sp, ne_eq, (h.task i).free]

theorem Homes.sum_taskPages (h : Homes k k') :
    ∑ i, (taskPages (k'.tasks i) : Multiset ℕ) = ∑ i, (taskPages (k.tasks i) : Multiset ℕ) :=
  Finset.sum_congr rfl fun i _ => by rw [(h.task i).taskPages]

/-! ## The books -/

variable [PageAlloc H]

/-- The process has a space of its own. -/
def Housed (k : Kernel H) (i : Fin kMaxTask) : Prop :=
  (k.tasks i).state ≠ .free ∧ (k.tasks i).sp ∈ k.spaceSet

instance (k : Kernel H) (i : Fin kMaxTask) : Decidable (Housed k i) :=
  inferInstanceAs (Decidable (_ ∧ _))

/-- Two processes have different spaces, and `g_boot`, which is in the image of the kernel, is no
page of the heap. -/
structure Housing (k : Kernel H) : Prop where
  /-- No two processes have one space. -/
  apart : ∀ i j, Housed k i → Housed k j → (k.tasks i).sp = (k.tasks j).sp → i = j
  /-- `g_boot` is never handed out. -/
  boot : ∀ (h : H) (n : ℕ), n < 2 ^ 16 → (allocN h n).1 ≠ k.mmu.boot

omit [PageAlloc H] in
theorem Homes.housed (h : Homes k k') (i : Fin kMaxTask) : Housed k' i ↔ Housed k i := by
  rw [Housed, Housed, h.spaceSet, (h.task i).sp, ne_eq, (h.task i).free]

theorem Homes.housing (h : Homes k k') (hk : Housing k) : Housing k' := by
  refine ⟨fun i j hi hj he => ?_, fun h' n hn => ?_⟩
  · rw [(h.task i).sp, (h.task j).sp] at he
    exact hk.apart i j ((h.housed i).mp hi) ((h.housed j).mp hj) he
  · rw [h.mmu.boot]
    exact hk.boot h' n hn

variable [UsageStats H]

/-- All that the processes hold and the blocks in `L` are out, each once; besides them the blocks
in `rest` are out, and `base` is in use. -/
structure Books (rest : Set ℕ) (base : ℕ) (k : Kernel H) (L : Multiset ℕ) : Prop where
  balanced : Balanced rest base k.mmu k.spaceSet (groupSet k.mmu k.spaceSet)
    (∑ i, (taskPages (k.tasks i) : Multiset ℕ) + L)
  housing : Housing k

theorem Books.bill (hb : Books rest base k L) : Bill rest base k.mmu.heap (kernelHolds k + L) := by
  rw [kernelHolds, add_assoc]
  exact hb.balanced.bill

/-- Books are made from what holds of the kernel. -/
theorem Books.mk' {S G : Finset ℕ} {R : Multiset ℕ} (hb : Balanced rest base k.mmu S G R)
    (hS : k.spaceSet = S) (hR : R = ∑ i, (taskPages (k.tasks i) : Multiset ℕ) + L)
    (hk : Housing k) : Books rest base k L := by
  subst hS hR
  refine ⟨?_, hk⟩
  rw [← hb.counted.eq_groupSet]
  exact hb

theorem Books.homes (hb : Books rest base k L) (h : Homes k k') : Books rest base k' L :=
  .mk' (hb.balanced.samePages h.mmu) h.spaceSet (by rw [h.sum_taskPages]) (h.housing hb.housing)

/-- What happens in memory only. -/
theorem Books.setMmu {m : Mmu H} {L' : Multiset ℕ} (hb : Books rest base k L)
    (hbal : Balanced rest base m k.spaceSet (groupSet k.mmu k.spaceSet)
      (∑ i, (taskPages (k.tasks i) : Multiset ℕ) + L')) (hboot : m.boot = k.mmu.boot) :
    Books rest base (k.setMmu m) L' := by
  have hset : (k.setMmu m).spaceSet = k.spaceSet := by
    ext s
    rw [mem_spaceSet, mem_spaceSet, setMmu_mmu, hboot, setMmu_tasks]
  refine .mk' hbal hset rfl ⟨fun i j hi hj => hb.housing.apart i j ?_ ?_, fun h n hn => ?_⟩
  · rw [Housed, hset] at hi
    exact hi
  · rw [Housed, hset] at hj
    exact hj
  · rw [setMmu_mmu, hboot]
    exact hb.housing.boot h n hn

/-! ## One process goes -/

omit [UsageStats H] in
/-- The table without the entry of one process. -/
theorem spaceSet_destroy {t : Task} {m : Mmu H} (hk : Housing k) (hi : (k.tasks i).state ≠ .free)
    (ht : t.state = .free) (hboot : m.boot = k.mmu.boot) :
    ((k.setMmu m).setTask i t).spaceSet = k.spaceSet.erase (k.tasks i).sp := by
  have htask : ∀ j, ((k.setMmu m).setTask i t).tasks j = if j = i then t else k.tasks j :=
    fun j => by
    rw [setTask_tasks, Function.update_apply]
    rfl
  ext s
  rw [Finset.mem_erase, mem_spaceSet, setTask_mmu, setMmu_mmu, hboot]
  constructor
  · rintro ⟨⟨j, hj, rfl⟩, h0, hb⟩
    by_cases hji : j = i
    · rw [htask, if_pos hji] at hj
      exact absurd ht hj
    · rw [htask, if_neg hji] at hj h0 hb ⊢
      have hin : (k.tasks j).sp ∈ k.spaceSet := mem_spaceSet.mpr ⟨⟨j, hj, rfl⟩, h0, hb⟩
      refine ⟨fun he => hji ?_, hin⟩
      exact hk.apart j i ⟨hj, hin⟩ ⟨hi, he ▸ hin⟩ he
  · rintro ⟨hne, hs⟩
    obtain ⟨⟨j, hj, rfl⟩, h0, hb⟩ := mem_spaceSet.mp hs
    refine ⟨⟨j, ?_, ?_⟩, h0, hb⟩
    · rw [htask, if_neg fun hji => hne (by rw [hji])]
      exact hj
    · rw [htask, if_neg fun hji => hne (by rw [hji])]

omit [PageAlloc H] [UsageStats H] in
theorem sum_taskPages_free {t : Task} {m : Mmu H} (ht : t.state = .free) :
    (taskPages (k.tasks i) : Multiset ℕ)
      + ∑ j, (taskPages (((k.setMmu m).setTask i t).tasks j) : Multiset ℕ)
      = ∑ j, (taskPages (k.tasks j) : Multiset ℕ) := by
  have hrest : ∑ j ∈ Finset.univ.erase i,
      (taskPages (((k.setMmu m).setTask i t).tasks j) : Multiset ℕ)
      = ∑ j ∈ Finset.univ.erase i, (taskPages (k.tasks j) : Multiset ℕ) := by
    refine Finset.sum_congr rfl fun j hj => ?_
    rw [setTask_tasks, Function.update_of_ne (Finset.ne_of_mem_erase hj), setMmu_tasks]
  have hself : (taskPages (((k.setMmu m).setTask i t).tasks i) : Multiset ℕ) = 0 := by
    rw [setTask_tasks, Function.update_self, taskPages, if_pos ht]
    rfl
  rw [← Finset.add_sum_erase Finset.univ _ (Finset.mem_univ i), hrest, hself, zero_add,
    Finset.add_sum_erase Finset.univ (fun j => (taskPages (k.tasks j) : Multiset ℕ))
      (Finset.mem_univ i)]

/-- The space of a process goes, if it has one of its own. -/
theorem Books.spaceDestroy (hb : Books rest base k L) (hi : (k.tasks i).state ≠ .free) :
    (∃ G, Balanced rest base (k.mmu.spaceDestroy (k.tasks i).sp) (k.spaceSet.erase (k.tasks i).sp)
      G (∑ j, (taskPages (k.tasks j) : Multiset ℕ) + L)) ∧
      (k.mmu.spaceDestroy (k.tasks i).sp).boot = k.mmu.boot := by
  by_cases hs : (k.tasks i).sp ∈ k.spaceSet
  · have hs' := (mem_spaceSet.mp hs).2
    obtain ⟨m', hm', -, -, -, -, -, -, hboot⟩ := spaceDestroy_eq k.mmu hs'.1 hs'.2
    exact ⟨⟨_, hb.balanced.destroy hs hs'.2⟩, hm' ▸ hboot⟩
  · have hnone : (k.tasks i).sp = 0 ∨ (k.tasks i).sp = k.mmu.boot := by
      by_contra h
      obtain ⟨h0, hboot⟩ := not_or.mp h
      exact hs (mem_spaceSet.mpr ⟨⟨i, hi, rfl⟩, h0, hboot⟩)
    rw [Mmu.spaceDestroy, if_pos hnone, Finset.erase_eq_of_notMem hs]
    exact ⟨⟨_, hb.balanced⟩, rfl⟩

/-- What `destroy` gives back besides the space. -/
def freeTask (m : Mmu H) (t : Task) : Mmu H :=
  let m := if t.kstack ≠ 0 then m.kfree (t.kstack - kKernelStackBytes) else m
  if t.ownsFrames then ((m.kframeFree t.heapBase).kframeFree t.codeBase).kframeFree t.stackBase
  else m

/-- What `destroy` leaves of the entry. -/
def emptied (t : Task) : Task :=
  { t with
    sp := 0, kstack := 0, heapBase := 0, heapEnd := 0, brk := 0, codeBase := 0, stackBase := 0
    ownsFrames := false, state := .free }

omit [UsageStats H] in
theorem destroy_eq (hi : (k.tasks i).state ≠ .free) : k.destroy i =
    (k.setMmu (freeTask (k.mmu.spaceDestroy (k.tasks i).sp) (k.tasks i))).setTask i
      (emptied (k.tasks i)) := by
  rw [Kernel.destroy]
  exact if_neg hi

omit [UsageStats H] in
theorem freeTask_boot (m : Mmu H) (t : Task) : (freeTask m t).boot = m.boot := by
  rw [freeTask]
  split <;> split <;> rfl

/-- The stack goes, and the image if it is the process's own. -/
theorem balanced_freeTask {m : Mmu H} {S G : Finset ℕ} {R : Multiset ℕ} {t : Task}
    (hi : t.state ≠ .free) (hb : Balanced rest base m S G ((taskPages t : Multiset ℕ) + R)) :
    Balanced rest base (freeTask m t) S G R := by
  rw [taskPages, if_neg hi, ← Multiset.coe_add, add_assoc] at hb
  rw [freeTask]
  set frames := if t.ownsFrames = true then [t.heapBase, t.codeBase, t.stackBase].filter (· ≠ 0)
    else [] with hframes
  set m₁ := if t.kstack ≠ 0 then m.kfree (t.kstack - kKernelStackBytes) else m with hm₁
  have h1 : Balanced rest base m₁ S G ((frames : Multiset ℕ) + R) := by
    rw [hm₁]
    split
    · next hk =>
      rw [if_pos hk] at hb
      refine hb.setHeap ?_
      have hbill := hb.bill
      rw [add_left_comm] at hbill
      exact hbill.free
    · next hk =>
      rw [if_neg hk] at hb
      exact (zero_add ((frames : Multiset ℕ) + R)) ▸ hb
  split
  · next hk =>
    rw [hframes, if_pos hk] at h1
    refine h1.setHeap (h := [t.heapBase, t.codeBase, t.stackBase].foldl free m₁.heap) ?_
    have hbill := h1.bill
    rw [add_left_comm] at hbill
    exact hbill.freeNonzero
  · next hk =>
    rw [hframes, if_neg hk] at h1
    exact (zero_add R) ▸ h1

/-- **`destroy`** gives back all that the process held. -/
theorem Books.destroy (hb : Books rest base k L) (i : Fin kMaxTask) :
    Books rest base (k.destroy i) L := by
  by_cases hi : (k.tasks i).state = .free
  · have hsame : k.destroy i = k := if_pos hi
    rw [hsame]
    exact hb
  obtain ⟨⟨G, hbal⟩, hboot⟩ := hb.spaceDestroy hi
  rw [destroy_eq hi]
  set m := freeTask (k.mmu.spaceDestroy (k.tasks i).sp) (k.tasks i)
  rw [← sum_taskPages_free (k := k) (i := i) (m := m) (t := emptied (k.tasks i)) rfl,
    add_assoc] at hbal
  have hboot' : m.boot = k.mmu.boot := (freeTask_boot _ _).trans hboot
  have hset := spaceSet_destroy (m := m) (t := emptied (k.tasks i)) hb.housing hi rfl hboot'
  refine .mk' (balanced_freeTask hi hbal) hset rfl ⟨fun a b ha hb' he => ?_, fun h n hn => ?_⟩
  · have htask : ∀ j, Housed ((k.setMmu m).setTask i (emptied (k.tasks i))) j →
        j ≠ i ∧ ((k.setMmu m).setTask i (emptied (k.tasks i))).tasks j = k.tasks j ∧
          Housed k j := by
      intro j hj
      have hji : j ≠ i := by
        rintro rfl
        refine hj.1 ?_
        rw [setTask_tasks, Function.update_self]
        rfl
      have hsame : ((k.setMmu m).setTask i (emptied (k.tasks i))).tasks j = k.tasks j := by
        rw [setTask_tasks, Function.update_of_ne hji, setMmu_tasks]
      rw [Housed, hsame, hset] at hj
      exact ⟨hji, hsame, hj.1, Finset.mem_of_mem_erase hj.2⟩
    obtain ⟨-, h1, h2⟩ := htask a ha
    obtain ⟨-, h3, h4⟩ := htask b hb'
    rw [h1, h3] at he
    exact hb.housing.apart a b h2 h4 he
  · rw [setTask_mmu, setMmu_mmu, hboot']
    exact hb.housing.boot h n hn

/-- The body of the loop of **`reap`**. -/
theorem Books.reapSlot (hb : Books rest base k L) (i : Fin kMaxTask) :
    Books rest base (k.reapSlot i) L := by
  have h1 : Books rest base (if (k.tasks i).state = .killed then k.bury i else k) L := by
    split
    · next hk =>
      refine hb.homes (homes_bury ?_)
      rw [hk]
      exact TaskState.noConfusion
    · exact hb
  rw [Kernel.reapSlot]
  generalize (if (k.tasks i).state = .killed then k.bury i else k) = k₁ at h1 ⊢
  split
  · exact h1
  · exact h1.destroy i

theorem Books.foldl_reapSlot (hb : Books rest base k L) (l : List (Fin kMaxTask)) :
    Books rest base (l.foldl Kernel.reapSlot k) L := by
  induction l generalizing k with
  | nil => exact hb
  | cons i l ih => exact ih (hb.reapSlot i)

/-- **`reap`** gives back all that the processes it ends held. -/
theorem Books.reap (hb : Books rest base k L) (h : k.reap = some k') : Books rest base k' L := by
  rw [Kernel.reap] at h
  split at h
  · cases h
  · exact Option.some.inj h ▸ hb.foldl_reapSlot _

/-! ## One process more -/

omit [PageAlloc H] [UsageStats H] in
theorem sum_taskPages_new {t : Task} {m : Mmu H} {slot : Fin kMaxTask}
    (hfree : (k.tasks slot).state = .free) :
    ∑ j, (taskPages (((k.setMmu m).setTask slot t).tasks j) : Multiset ℕ)
      = (taskPages t : Multiset ℕ) + ∑ j, (taskPages (k.tasks j) : Multiset ℕ) := by
  have hrest : ∑ j ∈ Finset.univ.erase slot,
      (taskPages (((k.setMmu m).setTask slot t).tasks j) : Multiset ℕ)
      = ∑ j ∈ Finset.univ.erase slot, (taskPages (k.tasks j) : Multiset ℕ) := by
    refine Finset.sum_congr rfl fun j hj => ?_
    rw [setTask_tasks, Function.update_of_ne (Finset.ne_of_mem_erase hj), setMmu_tasks]
  have hold : (taskPages (k.tasks slot) : Multiset ℕ) = 0 := by
    rw [taskPages, if_pos hfree]
    rfl
  rw [← Finset.add_sum_erase Finset.univ _ (Finset.mem_univ slot), hrest, setTask_tasks,
    Function.update_self,
    ← Finset.add_sum_erase Finset.univ (fun j => (taskPages (k.tasks j) : Multiset ℕ))
      (Finset.mem_univ slot), hold, zero_add]

omit [PageAlloc H] [UsageStats H] in
theorem spaceSet_new {t : Task} {m : Mmu H} {slot : Fin kMaxTask}
    (hfree : (k.tasks slot).state = .free) (ht : t.state ≠ .free) (h0 : t.sp ≠ 0)
    (hboot : m.boot = k.mmu.boot) (hne : t.sp ≠ k.mmu.boot) :
    ((k.setMmu m).setTask slot t).spaceSet = insert t.sp k.spaceSet := by
  have hself : ((k.setMmu m).setTask slot t).tasks slot = t := by
    rw [setTask_tasks, Function.update_self]
  have hother : ∀ j, j ≠ slot → ((k.setMmu m).setTask slot t).tasks j = k.tasks j := fun j hj => by
    rw [setTask_tasks, Function.update_of_ne hj, setMmu_tasks]
  ext s
  rw [Finset.mem_insert, mem_spaceSet, mem_spaceSet, setTask_mmu, setMmu_mmu, hboot]
  constructor
  · rintro ⟨⟨j, hj, rfl⟩, hs⟩
    by_cases hslot : j = slot
    · rw [hslot, hself]
      exact Or.inl rfl
    · rw [hother j hslot] at hj hs ⊢
      exact Or.inr ⟨⟨j, hj, rfl⟩, hs⟩
  · rintro (rfl | ⟨⟨j, hj, rfl⟩, hs⟩)
    · exact ⟨⟨slot, by rwa [hself], by rw [hself]⟩, h0, hne⟩
    · have hslot : j ≠ slot := fun h => hj (h ▸ hfree)
      exact ⟨⟨j, by rwa [hother j hslot], by rw [hother j hslot]⟩, hs⟩

/-- A process that is made in a free slot, in a space that no other process has. -/
theorem Books.setNew {t : Task} {m : Mmu H} {slot : Fin kMaxTask} {G : Finset ℕ}
    (hb : Books rest base k L) (hfree : (k.tasks slot).state = .free) (ht : t.state ≠ .free)
    (h0 : t.sp ≠ 0) (hboot : m.boot = k.mmu.boot) (hne : t.sp ≠ k.mmu.boot)
    (hnew : t.sp ∉ k.spaceSet)
    (hbal : Balanced rest base m (insert t.sp k.spaceSet) G
      ((taskPages t : Multiset ℕ) + (∑ i, (taskPages (k.tasks i) : Multiset ℕ) + L))) :
    Books rest base ((k.setMmu m).setTask slot t) L := by
  have hset := spaceSet_new (m := m) hfree ht h0 hboot hne
  refine .mk' hbal hset ?_ ⟨fun a b ha hb' he => ?_, fun h n hn => ?_⟩
  · rw [sum_taskPages_new hfree, add_assoc]
  · have htask : ∀ j, j ≠ slot → ((k.setMmu m).setTask slot t).tasks j = k.tasks j := fun j hj => by
      rw [setTask_tasks, Function.update_of_ne hj, setMmu_tasks]
    have hself : ((k.setMmu m).setTask slot t).tasks slot = t := by
      rw [setTask_tasks, Function.update_self]
    -- whoever has the space of the new process is the new process
    have hold : ∀ j, j ≠ slot → Housed ((k.setMmu m).setTask slot t) j → (k.tasks j).sp ≠ t.sp ∧
        ((k.tasks j).sp ∈ k.spaceSet → Housed k j) := by
      intro j hj hhoused
      rw [Housed, htask j hj, mem_spaceSet, setTask_mmu, setMmu_mmu, hboot] at hhoused
      obtain ⟨hstate, -, hs⟩ := hhoused
      refine ⟨fun h => hnew ?_, fun h => ⟨hstate, h⟩⟩
      exact h ▸ mem_spaceSet.mpr ⟨⟨j, hstate, rfl⟩, hs⟩
    by_cases hsa : a = slot
    · by_cases hsb : b = slot
      · rw [hsa, hsb]
      · rw [hsa, hself, htask b hsb] at he
        exact absurd he.symm (hold b hsb hb').1
    · by_cases hsb : b = slot
      · rw [hsb, hself, htask a hsa] at he
        exact absurd he (hold a hsa ha).1
      · have hin : ∀ j, j ≠ slot → Housed ((k.setMmu m).setTask slot t) j → Housed k j := by
          intro j hj hhoused
          refine (hold j hj hhoused).2 ?_
          have := hhoused.2
          rw [hset, htask j hj] at this
          exact Finset.mem_of_mem_insert_of_ne this (hold j hj hhoused).1
        rw [htask a hsa, htask b hsb] at he
        exact hb.housing.apart a b (hin a hsa ha) (hin b hsb hb') he
  · rw [setTask_mmu, setMmu_mmu, hboot]
    exact hb.housing.boot h n hn

/-- **`fork_user`**, when it makes a process: all that it takes is held by the parent and the
child. -/
theorem Books.forkUser {frame : Registers} {pid : ℕ} (hb : Books rest base k L)
    (hi : Housed k k.current) (hf : k.forkUser frame = (pid, k')) (hp : pid ≠ 0) :
    Books rest base k' L := by
  have hspec := k.forkUser_spec frame
  rw [hf] at hspec
  cases hspec with
  | refused => exact absurd rfl hp
  | noSpace => exact absurd rfl hp
  | noShare => exact absurd rfl hp
  | noStack => exact absurd rfl hp
  | @forked slot sp kstack m m' m'' hslot hspace hsp hshare hstack hk =>
    have h7 : HasPages k.mmu.heap 7 := by
      by_contra h
      have := spaceCreate_of_not_hasPages h
      rw [hspace] at this
      exact hsp this
    obtain ⟨hsp0, -, -, hboot, -, -, hcow, -⟩ := spaceCreate_keeps h7 hspace
    obtain ⟨hnew, hb1⟩ := hb.balanced.create h7 hspace
    have hne : sp ≠ (k.tasks k.current).sp := fun h => hnew (h ▸ hi.2)
    obtain ⟨G, hb2⟩ := hb1.share (Finset.mem_insert_self _ _) (Finset.mem_insert_of_mem hi.2) hne
      hcow hshare
    obtain ⟨hstack0, rfl⟩ := Prod.mk.inj hstack
    have hbill := hb2.bill.alloc (n := kKernelAlloc / 4096) (by decide) (hstack0.symm ▸ hk)
    rw [← Multiset.add_cons, hstack0] at hbill
    have hb3 := hb2.setHeap hbill
    have hboot' : (m'.setHeap (allocN m'.heap (kKernelAlloc / 4096)).2).boot = k.mmu.boot := by
      have := spaceShareUser_boot m sp (k.tasks k.current).sp
      rw [hshare] at this
      exact this.trans hboot
    have hspboot : sp ≠ k.mmu.boot := hsp0 ▸ hb.housing.boot k.mmu.heap 1 (by decide)
    have hfree := (freeSlot_eq_some hslot).2
    have hpages : taskPages (childOf (k.tasks k.current) slot sp kstack frame) = [kstack] := by
      rw [taskPages, if_neg TaskState.noConfusion, if_pos]
      · change [kstack + kKernelStackBytes - kKernelStackBytes] ++ [] = _
        rw [Nat.add_sub_cancel, List.append_nil]
      · change kstack + kKernelStackBytes ≠ 0
        omega
    have hquiet := homes_purgeNotes k (slot + 1)
    have hbp := hb.homes hquiet
    refine Books.homes (Books.setNew (G := G) hbp hfree TaskState.noConfusion hsp hboot' hspboot
      ?_ ?_) (.setPipes _ _)
    · rw [hquiet.spaceSet]
      exact hnew
    · rw [hquiet.spaceSet, hquiet.sum_taskPages, hpages]
      exact hb3

/-- **A fault.** The copy is on nobody's bill. -/
theorem Books.fault (hb : Books rest base k L) (va : ℕ) (hi : Housed k i) :
    (Copies k.mmu (k.tasks i).sp va → Books rest base
      (k.setMmu (k.mmu.spaceCowFault (k.tasks i).sp va).2) (pageAt k.mmu.heap 0 ::ₘ L)) ∧
    (¬Copies k.mmu (k.tasks i).sp va → Books rest base
      (k.setMmu (k.mmu.spaceCowFault (k.tasks i).sp va).2) L) := by
  obtain ⟨-, hyes, hno⟩ := hb.balanced.fault hi.2 va
  have hboot := spaceCowFault_boot k.mmu (k.tasks i).sp va
  refine ⟨fun h => hb.setMmu ?_ hboot, fun h => hb.setMmu (hno h) hboot⟩
  rw [Multiset.add_cons]
  exact hyes h

/-! ## What happens after a fork -/

/-- The kernel; the slots of a process and of those it has made, and they have made; and what others
have out for themselves. -/
structure Affairs (H : Type) where
  k : Kernel H
  family : Finset (Fin kMaxTask)
  theirs : Multiset ℕ

/-- The spaces of the processes outside the family. -/
def Affairs.otherSpaces (w : Affairs H) : Finset ℕ :=
  ((Finset.univ.filter fun i => (w.k.tasks i).state ≠ .free ∧ i ∉ w.family).image fun i =>
    (w.k.tasks i).sp).filter fun s => s ≠ 0 ∧ s ≠ w.k.mmu.boot

/-- All that is held outside the family. -/
def Affairs.others (w : Affairs H) : Multiset ℕ :=
  holds w.k.mmu w.otherSpaces (groupSet w.k.mmu w.otherSpaces)
    + ∑ i ∈ w.familyᶜ, (taskPages (w.k.tasks i) : Multiset ℕ) + w.theirs

omit [PageAlloc H] [UsageStats H] in
/-- When the family is gone all that is held is held by others. -/
theorem Affairs.others_eq {w : Affairs H} (h : w.family = ∅) :
    w.others = kernelHolds w.k + w.theirs := by
  have hs : w.otherSpaces = w.k.spaceSet := by
    simp [otherSpaces, spaceSet, h]
  rw [others, kernelHolds, hs, h, Finset.compl_empty]

/-- What can happen. -/
inductive Deed where
  /-- Another process runs. -/
  | run (i : Fin kMaxTask)
  /-- The process that runs stores to a page that it may not write. -/
  | fault (va : ℕ)
  | fork (frame : Registers)
  | exit (code : UInt32)
  | signal (pid : ℕ) (sig : UInt32)
  | reap
  /-- Somebody outside the family takes pages, or gives them back. -/
  | take (n : ℕ)
  | give (p : ℕ)
  /-- Anything that takes no pages and gives none back. -/
  | work

/-- One deed. A child of the family belongs to it, until it is reaped. The copy that a fault makes
for another process is that process's own affair. -/
inductive Deed.Step : Affairs H → Deed → Affairs H → Prop where
  | run {w : Affairs H} {i : Fin kMaxTask} (h : (w.k.tasks i).state = .ready) :
      Step w (.run i) { w with k := w.k.switchTo i }
  | fault {w : Affairs H} (va : ℕ) (h : Housed w.k w.k.current) :
      Step w (.fault va) { w with
        k := w.k.setMmu (w.k.mmu.spaceCowFault w.k.space va).2
        theirs :=
          if w.k.current ∉ w.family ∧ (w.k.mmu.spaceCowFault w.k.space va).1 then
            pageAt w.k.mmu.heap 0 ::ₘ w.theirs
          else w.theirs }
  | fork {w : Affairs H} {frame : Registers} {pid : ℕ} {k' : Kernel H}
      (h : Housed w.k w.k.current) (hf : w.k.forkUser frame = (pid, k')) (hp : pid ≠ 0) :
      Step w (.fork frame) { w with
        k := k'
        family :=
          if w.k.current ∈ w.family then w.k.freeSlot.toFinset ∪ w.family else w.family }
  | exit {w : Affairs H} (code : UInt32) (h : (w.k.tasks w.k.current).state ≠ .free) :
      Step w (.exit code) { w with k := w.k.exit code }
  | signal (w : Affairs H) (pid : ℕ) (sig : UInt32) :
      Step w (.signal pid sig) { w with k := (w.k.signalTask pid sig).2 }
  | reap {w : Affairs H} {k' : Kernel H} (h : w.k.reap = some k') :
      Step w .reap { w with k := k', family := w.family.filter fun i => (k'.tasks i).state ≠ .free }
  | take {w : Affairs H} {n : ℕ} (hn : n < 2 ^ 16) (h0 : (w.k.mmu.kframeAllocN n).1 ≠ 0) :
      Step w (.take n) { w with
        k := w.k.setMmu (w.k.mmu.kframeAllocN n).2
        theirs := (w.k.mmu.kframeAllocN n).1 ::ₘ w.theirs }
  | give {w : Affairs H} {p : ℕ} (h : p ∈ w.theirs) :
      Step w (.give p) { w with k := w.k.setMmu (w.k.mmu.kfree p), theirs := w.theirs.erase p }
  | work {w : Affairs H} {k' : Kernel H} (h : Homes w.k k') : Step w .work { w with k := k' }

/-- Any number of deeds, with the state before each. -/
inductive Runs : Affairs H → List (Affairs H × Deed) → Affairs H → Prop where
  | nil (w : Affairs H) : Runs w [] w
  | cons {w w' w'' : Affairs H} {d : Deed} {tr : List (Affairs H × Deed)} (h : d.Step w w')
      (hr : Runs w' tr w'') : Runs w ((w, d) :: tr) w''

/-- A process of the family stores to a page it shares, and gets a copy. -/
def LeavesCopy (w : Affairs H) (d : Deed) : Prop :=
  ∃ va, d = .fault va ∧ w.k.current ∈ w.family ∧ Copies w.k.mmu w.k.space va

/-- All that the processes hold is out, each page once, and the groups are counted right. -/
structure Settled (k : Kernel H) (L : Multiset ℕ) : Prop where
  /-- What is held is out, -/
  out : ∀ p ∈ kernelHolds k + L, (live k.mmu.heap p).isSome
  /-- each page once. -/
  nodup : (kernelHolds k + L).Nodup
  /-- The counts of the groups are right. -/
  counted : Paging.Counted k.mmu k.spaceSet (groupSet k.mmu k.spaceSet)
  /-- Each process has a space of its own. -/
  housing : Housing k

/-- What is out and not held outside the family was so before; and as much is in use as before, but
for what the others have. -/
structure GivesBack (w₀ w : Affairs H) : Prop where
  /-- What is out was so before. -/
  blocks : ∀ p, (live w.k.mmu.heap p).isSome → p ∉ w.others →
    (live w₀.k.mmu.heap p).isSome ∧ p ∉ w₀.others
  /-- As much is in use as before. -/
  used : UsageStats.used w.k.mmu.heap + total w₀.k.mmu.heap w₀.others
    = UsageStats.used w₀.k.mmu.heap + total w.k.mmu.heap w.others

theorem Settled.books (h : Settled k L) : ∃ base, Books
    {p | (live k.mmu.heap p).isSome ∧ p ∉ kernelHolds k + L} base k L := by
  obtain ⟨base, hb⟩ := exists_bill h.nodup h.out
  refine ⟨base, ⟨?_, h.counted⟩, h.housing⟩
  rw [← add_assoc]
  exact hb

variable {w w' : Affairs H} {d : Deed} {tr : List (Affairs H × Deed)} {lost : Multiset ℕ}

/-- **One deed** loses the copy that is made for one of the family, and nothing else. -/
theorem Books.step (hb : Books rest base w.k (w.theirs + lost)) (h : d.Step w w') :
    ∃ gone, Books rest base w'.k (w'.theirs + (gone + lost)) ∧ (gone = 0 ↔ ¬LeavesCopy w d) := by
  have none : ∀ {d}, (∀ va, d ≠ Deed.fault va) → ((0 : Multiset ℕ) = 0 ↔ ¬LeavesCopy w d) :=
    fun hd => iff_of_true rfl fun ⟨va, hva, _⟩ => hd va hva
  cases h with
  | run h => exact ⟨0, (zero_add lost).symm ▸ hb.homes (homes_switchTo h), none (by simp)⟩
  | fault va hi =>
    obtain ⟨hyes, hno⟩ := hb.fault va hi
    have hok := (hb.balanced.fault hi.2 va).1
    by_cases hc : Copies w.k.mmu w.k.space va
    · have hok' := hok.mpr hc
      by_cases hf : w.k.current ∈ w.family
      · refine ⟨{pageAt w.k.mmu.heap 0}, ?_, iff_of_false (Multiset.singleton_ne_zero _)
          (not_not.mpr ⟨va, rfl, hf, hc⟩)⟩
        rw [if_neg fun h => h.1 hf, Multiset.singleton_add, Multiset.add_cons]
        exact hyes hc
      · refine ⟨0, ?_, iff_of_true rfl fun ⟨_, _, h, _⟩ => hf h⟩
        rw [if_pos ⟨hf, hok'⟩, zero_add, Multiset.cons_add]
        exact hyes hc
    · refine ⟨0, ?_, iff_of_true rfl ?_⟩
      · rw [if_neg fun h => hc (hok.mp h.2), zero_add]
        exact hno hc
      · rintro ⟨va', hva, -, hc'⟩
        cases hva
        exact hc hc'
  | fork hi hf hp => exact ⟨0, (zero_add lost).symm ▸ hb.forkUser hi hf hp, none (by simp)⟩
  | exit code h => exact ⟨0, (zero_add lost).symm ▸ hb.homes (homes_exit h code), none (by simp)⟩
  | signal pid sig =>
    exact ⟨0, (zero_add lost).symm ▸ hb.homes (homes_signalTask _ pid sig), none (by simp)⟩
  | reap h => exact ⟨0, (zero_add lost).symm ▸ hb.reap h, none (by simp)⟩
  | take hn h0 =>
    refine ⟨0, ?_, none (by simp)⟩
    have hbill := hb.balanced.bill.alloc hn h0
    rw [← Multiset.add_cons, ← Multiset.add_cons] at hbill
    rw [zero_add, Multiset.cons_add]
    exact hb.setMmu (hb.balanced.setHeap hbill) rfl
  | @give p hp =>
    refine ⟨0, ?_, none (by simp)⟩
    obtain ⟨L, hL⟩ := Multiset.exists_cons_of_mem hp
    have hbill := hb.balanced.bill
    rw [hL, Multiset.cons_add, Multiset.add_cons, Multiset.add_cons] at hbill
    rw [zero_add, hL, Multiset.erase_cons_head]
    exact hb.setMmu (hb.balanced.setHeap hbill.free) rfl
  | work h => exact ⟨0, (zero_add lost).symm ▸ hb.homes h, none (by simp)⟩

/-- **Any number of deeds.** -/
theorem Books.runs (h : Runs w tr w') (hb : Books rest base w.k (w.theirs + lost)) :
    ∃ gone, Books rest base w'.k (w'.theirs + (gone + lost)) ∧
      (gone = 0 ↔ ∀ x ∈ tr, ¬LeavesCopy x.1 x.2) := by
  induction h generalizing lost with
  | nil w => exact ⟨0, (zero_add lost).symm ▸ hb, by simp⟩
  | cons hd _ ih =>
    obtain ⟨g₁, hb₁, h₁⟩ := hb.step hd
    obtain ⟨g₂, hb₂, h₂⟩ := ih hb₁
    refine ⟨g₂ + g₁, (add_assoc g₂ g₁ lost).symm ▸ hb₂, ?_⟩
    rw [add_eq_zero_iff_of_nonneg (Multiset.zero_le _) (Multiset.zero_le _), h₁, h₂,
      List.forall_mem_cons, and_comm]

/-- **What a child leaves.** When a child and all that came from it are reaped, all that they took
has been given back if and only if none of them got a copy of a page it stored to. -/
theorem child_gives_back_iff {k₀ k₁ : Kernel H} {L₀ : Multiset ℕ} {frame : Registers} {pid : ℕ}
    (hs : Settled k₀ L₀) (hi : Housed k₀ k₀.current) (hf : k₀.forkUser frame = (pid, k₁))
    (hp : pid ≠ 0) (hr : Runs ⟨k₁, k₀.freeSlot.toFinset, L₀⟩ tr w) (hend : w.family = ∅) :
    GivesBack ⟨k₀, ∅, L₀⟩ w ↔ ∀ x ∈ tr, ¬LeavesCopy x.1 x.2 := by
  obtain ⟨base, hb⟩ := hs.books
  have hb₁ : Books {p | (live k₀.mmu.heap p).isSome ∧ p ∉ kernelHolds k₀ + L₀} base k₁ (L₀ + 0) :=
    (add_zero L₀).symm ▸ hb.forkUser hi hf hp
  obtain ⟨gone, hb', hgone⟩ := Books.runs hr hb₁
  have hbill := hb'.bill
  rw [add_zero, ← add_assoc, ← Affairs.others_eq hend] at hbill
  have hw₀ : (⟨k₀, ∅, L₀⟩ : Affairs H).others = kernelHolds k₀ + L₀ := Affairs.others_eq rfl
  rw [← hgone]
  constructor
  · intro h
    by_contra hne
    obtain ⟨p, hp⟩ := Multiset.exists_mem_of_ne_zero hne
    have hmem : p ∈ w.others + gone := Multiset.mem_add.mpr (Or.inr hp)
    have hnot : p ∉ w.others := fun h =>
      Multiset.disjoint_left.mp (Multiset.nodup_add.mp hbill.nodup).2.2 h hp
    have hout := h.blocks p (hbill.live hmem) hnot
    rw [hw₀] at hout
    exact hbill.apart p hmem hout
  · rintro rfl
    rw [add_zero] at hbill
    constructor
    · intro p hl hnot
      rw [hw₀]
      exact ((hbill.out p).mp hl).resolve_right hnot
    · have h₀ := hb.bill.used
      have h₁ := hbill.used
      rw [hw₀]
      dsimp only
      omega

/-! ## A child that stores, and one that does not -/

/-- A process with an image of one page, that is about to fork. -/
def sharer : Kernel (Listed Bump) :=
  let k := cramped 0x100000 (by decide)
  let (code, m) := k.mmu.kframeAlloc
  (k.setMmu (m.mapPage 4096 0x40000000 code true).2).setTask 0
    { k.tasks 0 with ownsFrames := true, codeBase := code }

namespace Affairs

/-- After the fork. -/
def forked : Affairs (Listed Bump) :=
  ⟨(sharer.forkUser userFrame).2, sharer.freeSlot.toFinset, 0⟩

/-- The child runs. -/
def born : Affairs (Listed Bump) := { forked with k := forked.k.switchTo 1 }

/-- It stores to the first page of the image. -/
def stored : Affairs (Listed Bump) where
  k := born.k.setMmu (born.k.mmu.spaceCowFault born.k.space 0x40000000).2
  family := born.family
  theirs :=
    if born.k.current ∉ born.family ∧ (born.k.mmu.spaceCowFault born.k.space 0x40000000).1 then
      pageAt born.k.mmu.heap 0 ::ₘ born.theirs
    else born.theirs

/-- Those that have ended are reaped. -/
def reaped (w : Affairs (Listed Bump)) : Affairs (Listed Bump) :=
  let k := w.k.reap.getD w.k
  { w with k := k, family := w.family.filter fun i => (k.tasks i).state ≠ .free }

/-- The child ends and is reaped when the parent runs. -/
def ended (w : Affairs (Listed Bump)) : Affairs (Listed Bump) :=
  reaped { w with k := (w.k.exit 0).switchTo 0 }

end Affairs

theorem settled_sharer : Settled sharer 0 where
  out := by decide +kernel
  nodup := by decide +kernel
  counted := counted_groupSet (by decide +kernel)
  housing := by
    refine ⟨by decide +kernel, fun h n hn he => ?_⟩
    have hd := allocN_dvd h n hn
    rw [he] at hd
    revert hd
    decide +kernel

theorem housed_sharer : Housed sharer sharer.current := by decide +kernel

theorem step_reaped {w : Affairs (Listed Bump)} (h : w.k.reap.isSome) :
    Deed.Step w .reap w.reaped :=
  .reap ((Option.some_get h).symm.trans (congrArg some (Option.get_eq_getD _)))

theorem runs_ended (w : Affairs (Listed Bump)) (hc : (w.k.tasks w.k.current).state ≠ .free)
    (hready : ((w.k.exit 0).tasks 0).state = .ready)
    (hreap : ((w.k.exit 0).switchTo 0).reap.isSome) :
    Runs w [(w, .exit 0), ({ w with k := w.k.exit 0 }, .run 0),
      ({ w with k := (w.k.exit 0).switchTo 0 }, .reap)] w.ended := by
  have h1 : Deed.Step w (.exit 0) { w with k := w.k.exit 0 } := .exit 0 hc
  have h2 : Deed.Step { w with k := w.k.exit 0 } (.run 0)
      { w with k := (w.k.exit 0).switchTo 0 } := .run hready
  have h3 : Deed.Step { w with k := (w.k.exit 0).switchTo 0 } .reap w.ended := step_reaped hreap
  exact .cons h1 (.cons h2 (.cons h3 (.nil w.ended)))

/-- A child that does not store gives everything back. -/
theorem givesBack_quiet : GivesBack ⟨sharer, ∅, 0⟩ Affairs.born.ended :=
  (child_gives_back_iff settled_sharer housed_sharer Prod.mk.eta.symm (by decide +kernel)
    (.cons (.run (by decide +kernel)) (runs_ended .born (by decide +kernel) (by decide +kernel)
      (by decide +kernel)))
    (by decide +kernel)).mpr (by simp [LeavesCopy])

/-- A child that stores leaves the copy behind. -/
theorem copy_is_lost :
    Settled sharer 0 ∧ Housed sharer sharer.current ∧ (sharer.forkUser userFrame).1 ≠ 0 ∧
      (∃ tr, Runs .forked tr Affairs.stored.ended) ∧ Affairs.stored.ended.family = ∅ ∧
      used Affairs.stored.ended.k.mmu.heap = used Affairs.born.ended.k.mmu.heap + 4096 ∧
      ¬GivesBack ⟨sharer, ∅, 0⟩ Affairs.stored.ended := by
  have hbalance : used Affairs.stored.ended.k.mmu.heap
        + total sharer.mmu.heap (Affairs.others ⟨sharer, ∅, 0⟩)
      = used sharer.mmu.heap + total Affairs.stored.ended.k.mmu.heap Affairs.stored.ended.others
        + 4096 := by
    decide +kernel
  refine ⟨settled_sharer, housed_sharer, by decide +kernel,
    ⟨_, .cons (.run (by decide +kernel)) (.cons (.fault 0x40000000 (by decide +kernel))
      (runs_ended .stored (by decide +kernel) (by decide +kernel) (by decide +kernel)))⟩,
    by decide +kernel, by decide +kernel, fun h => ?_⟩
  have := h.used
  dsimp only at this
  omega

end Kernel

end Aurisys
