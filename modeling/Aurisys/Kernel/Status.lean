import Aurisys.Kernel.Dead
import Aurisys.Kernel.Exec

/-!
# The status of a child

A process that exits leaves its exit code with its parent, and one that is killed by a signal `128`
and the signal. `waitpid` takes a code from `128` to `159` for a signal and hands it out as it is,
and moves any other up by eight bits. The two do not know of each other: an exit code from `129` to
`159` is handed out like a signal, and one whose lower three bytes are zero is moved out of the
word.

## Main definitions

* `waitStatus`, `waitpid`
* `Awaited` — a child runs, and its parent will be told of its end
* `exitStatus`, `signalStatus` — what the parent is told when the child exits, and when it is killed
* `Plain` — the exit codes that come through

## Main results

* `exitStatus_eq`, `signalStatus_eq`
* `status_unambiguous_iff`
-/

namespace Aurisys

namespace Kernel

/-- The status that `waitpid` makes of a code. -/
def waitStatus (code : UInt32) : UInt32 :=
  if 128 ≤ toInt code.toNat ∧ toInt code.toNat < 128 + 32 then code else code <<< 8

/-- `waitpid` of the parent, once `wait_for` finds a note: the child and its status. -/
def waitpid (t : Task) (pid : ℕ) : Option (ℕ × UInt32 × Task) :=
  (takeDone t pid).map fun (n, t) => (n.pid, waitStatus n.code, t)

variable {H : Type} {k k' k'' : Kernel H} {i p : Fin kMaxTask}

/-- The child runs and is not being killed. Its parent is there, has room for a note, and has none
from an earlier process with the number. -/
structure Awaited (k : Kernel H) (p : Fin kMaxTask) : Prop where
  /-- The child runs. -/
  running : (k.tasks k.current).state = .running
  /-- Its parent is there, -/
  parent : k.find (k.tasks k.current).ppid = some p
  /-- and is not itself. -/
  other : p ≠ k.current
  /-- There is room for a note, -/
  room : (k.tasks p).done.length < kMaxTask
  /-- and there is none about its number. -/
  fresh : ∀ n ∈ (k.tasks p).done, n.pid ≠ (k.tasks k.current).pid
  /-- The number is not that of nobody. -/
  pos : (k.tasks k.current).pid ≠ 0

/-- What the parent is told when the child exits. -/
def exitStatus (k : Kernel H) (p : Fin kMaxTask) (c : UInt32) : Option UInt32 :=
  (waitpid ((k.exit c).tasks p) (k.tasks k.current).pid).map fun r => r.2.1

/-- The child, as `signal_task` leaves it. -/
def killedBy (k : Kernel H) (s : UInt32) : Kernel H :=
  k.setTask k.current { k.tasks k.current with signal := s, state := .killed }

/-- What the parent is told when a signal ends the child. -/
def signalStatus (k : Kernel H) (p : Fin kMaxTask) (s : UInt32) : Option UInt32 :=
  (waitpid (((k.killedBy s).bury k.current).tasks p) (k.tasks k.current).pid).map fun r => r.2.1

/-- The lower three bytes say something, and it is no code of a signal. -/
def Plain (c : UInt32) : Prop := (c = 0 ∨ c.toNat % 2 ^ 24 ≠ 0) ∧ ¬(129 ≤ c.toNat ∧ c.toNat ≤ 159)

/-! ## The codes stay

What closes descriptors and wakes tasks leaves the codes of all of them. -/

/-- Nobody's exit code or signal has changed. -/
structure SameCode (k k' : Kernel H) : Prop where
  exitCode : ∀ j, (k'.tasks j).exitCode = (k.tasks j).exitCode
  signal : ∀ j, (k'.tasks j).signal = (k.tasks j).signal

theorem SameCode.refl (k : Kernel H) : SameCode k k := ⟨fun _ => rfl, fun _ => rfl⟩

theorem SameCode.trans (h : SameCode k k') (h' : SameCode k' k'') : SameCode k k'' :=
  ⟨fun j => (h'.exitCode j).trans (h.exitCode j), fun j => (h'.signal j).trans (h.signal j)⟩

theorem SameCode.setTask {t : Task} (he : t.exitCode = (k.tasks i).exitCode)
    (hs : t.signal = (k.tasks i).signal) : SameCode k (k.setTask i t) := by
  constructor <;> intro j <;> rw [setTask_tasks, Function.update_apply] <;> split
  · next hj => rw [hj, he]
  · rfl
  · next hj => rw [hj, hs]
  · rfl

theorem sameCode_unblock (k : Kernel H) (i : Fin kMaxTask) : SameCode k (k.unblock i) := by
  rw [unblock]
  split
  · exact .setTask rfl rfl
  · exact .setTask rfl rfl

theorem sameCode_elim_unblock (k : Kernel H) (o : Option (Fin kMaxTask)) :
    SameCode k (o.elim k k.unblock) := by
  cases o with
  | none => exact .refl k
  | some i => exact sameCode_unblock k i

theorem sameCode_fdUnshare (k : Kernel H) (f : OFile) : SameCode k (k.fdUnshare f) := by
  rw [fdUnshare]
  split
  · exact .refl k
  · exact ((sameCode_elim_unblock k _).trans (sameCode_elim_unblock _ _)).trans
      ⟨fun _ => rfl, fun _ => rfl⟩

theorem sameCode_closeIn (k : Kernel H) (i : Fin kMaxTask) (fd : Fin kMaxFd) :
    SameCode k (k.closeIn i fd) := by
  have h : SameCode k (((k.tasks i).fd fd).elim k k.fdUnshare) := by
    cases (k.tasks i).fd fd with
    | none => exact .refl k
    | some f => exact sameCode_fdUnshare k f
  exact h.trans (.setTask rfl rfl)

theorem sameCode_fdCloseAll (k : Kernel H) (i : Fin kMaxTask) : SameCode k (k.fdCloseAll i) := by
  rw [fdCloseAll]
  generalize List.finRange kMaxFd = fds
  induction fds generalizing k with
  | nil => exact .refl k
  | cons fd fds ih =>
    rw [List.foldl_cons]
    refine SameCode.trans ?_ (ih _)
    split
    · exact sameCode_closeIn k i fd
    · exact .refl k

/-! ## The note -/

/-- The end of a process, up to the note: its parent has it. -/
theorem done_noted {t : Task} (hf : k.find t.ppid = some p) (hp : p ≠ i)
    (hroom : (k.tasks p).done.length < kMaxTask) (hpid : t.pid = (k.tasks i).pid)
    (hfree : t.state ≠ .free) (hfree' : (k.tasks i).state ≠ .free) :
    ((((k.setTask i t).fdCloseAll i).announce i).tasks p).done =
    (k.tasks p).done ++ [noteOf t] := by
  have hw := wakes_fdCloseAll (k.setTask i t) i
  have hc := sameCode_fdCloseAll (k.setTask i t) i
  have hself : (k.setTask i t).tasks i = t := by rw [setTask_tasks, Function.update_self]
  have hother : (k.setTask i t).tasks p = k.tasks p := by
    rw [setTask_tasks, Function.update_of_ne hp]
  have hfind : ((k.setTask i t).fdCloseAll i).find t.ppid = some p := by
    rw [find_congr hw.pid hw.free_iff, ← hf]
    refine find_congr (fun j => ?_) (fun j => ?_) _
    · rw [setTask_tasks, Function.update_apply]
      split
      · next hj => rw [hj, hpid]
      · rfl
    · rw [setTask_tasks, Function.update_apply]
      split
      · next hj => rw [hj]; exact iff_of_false hfree hfree'
      · exact Iff.rfl
  rw [(wakes_announce _ i).done, noted, hw.ppid, hself, hfind]
  have hdone : (((k.setTask i t).fdCloseAll i).tasks p).done = (k.tasks p).done := by
    rw [hw.done, hother]
  have hnote : noteOf (((k.setTask i t).fdCloseAll i).tasks i) = noteOf t := by
    rw [noteOf, noteOf, hw.pid, hc.exitCode, hc.signal, hself]
  simp only []
  rw [if_neg (by rw [hdone]; exact not_or.mpr ⟨hp, hroom.not_ge⟩), setTask_tasks,
    Function.update_self]
  change (((k.setTask i t).fdCloseAll i).tasks p).done ++ _ = _
  rw [hdone, hnote]

/-- **`exit`** leaves the exit code. -/
theorem Awaited.done_exit (h : Awaited k p) (c : UInt32) :
    ((k.exit c).tasks p).done = (k.tasks p).done ++ [⟨(k.tasks k.current).pid, c⟩] := by
  have hrun := h.running
  set t : Task := { k.tasks k.current with
    exitCode := c, state := .zombie
    signal := if (k.tasks k.current).state ≠ .killed then kSigNone
      else (k.tasks k.current).signal } with ht
  have he : k.exit c = (((k.setTask k.current t).fdCloseAll k.current).announce
      k.current).setTask k.current { (((k.setTask k.current t).fdCloseAll k.current).announce
        k.current).tasks k.current with inSyscall := true } := rfl
  have hnote : noteOf t = ⟨(k.tasks k.current).pid, c⟩ := by
    have hs : t.signal = 0 := if_pos (by rw [hrun]; decide)
    rw [noteOf, if_neg (not_not_intro hs)]
  have hd := done_noted (t := t) h.parent h.other h.room rfl
    (show TaskState.zombie ≠ .free by decide) (by rw [hrun]; decide)
  rw [hnote] at hd
  rw [he, setTask_tasks, Function.update_of_ne h.other]
  exact hd

/-- **`reap`** leaves the signal that ended the child, and `128`. -/
theorem Awaited.done_bury (h : Awaited k p) {s : UInt32} (hs : s ≠ 0) :
    (((k.killedBy s).bury k.current).tasks p).done =
      (k.tasks p).done ++ [⟨(k.tasks k.current).pid, 128 + s⟩] := by
  have hrun := h.running
  set t : Task :=
    { k.tasks k.current with exitCode := 128 + s, signal := s, state := .zombie } with ht
  have he : (k.killedBy s).bury k.current =
      ((k.setTask k.current t).fdCloseAll k.current).announce k.current := by
    rw [bury, killedBy]
    simp only [setTask_setTask, setTask_tasks, Function.update_self]
    rfl
  have hnote : noteOf t = ⟨(k.tasks k.current).pid, 128 + s⟩ := by
    rw [noteOf]
    exact congrArg (Note.mk _) (if_pos hs)
  rw [he, ← hnote]
  exact done_noted h.parent h.other h.room rfl
    (show TaskState.zombie ≠ .free by decide) (by rw [hrun]; decide)

/-- The only note with a number is found, at the end. -/
theorem takeDone_last {t : Task} {ns : List Note} {n : Note} (hd : t.done = ns ++ [n])
    (hfresh : ∀ m ∈ ns, m.pid ≠ n.pid) (hpos : n.pid ≠ 0) :
    takeDone t n.pid = some (n, { t with done := ns }) := by
  have hidx : (ns ++ [n]).findIdx? (fun m => decide (n.pid = 0 ∨ m.pid = n.pid)) =
      some ns.length := by
    rw [List.findIdx?_append, List.findIdx?_eq_none_iff.mpr]
    · simp
    · intro m hm
      simp [hpos, hfresh m hm]
  rw [takeDone, hd, hidx, Option.bind_some]
  simp

theorem waitpid_last {t : Task} {ns : List Note} {n : Note} (hd : t.done = ns ++ [n])
    (hfresh : ∀ m ∈ ns, m.pid ≠ n.pid) (hpos : n.pid ≠ 0) :
    (waitpid t n.pid).map (fun r => r.2.1) = some (waitStatus n.code) := by
  rw [waitpid, takeDone_last hd hfresh hpos]
  rfl

theorem exitStatus_eq (h : Awaited k p) (c : UInt32) : k.exitStatus p c = some (waitStatus c) :=
  waitpid_last (n := ⟨_, c⟩) (h.done_exit c) h.fresh h.pos

theorem signalStatus_eq (h : Awaited k p) {s : UInt32} (hs : s ≠ 0) :
    k.signalStatus p s = some (waitStatus (128 + s)) :=
  waitpid_last (n := ⟨_, 128 + s⟩) (h.done_bury hs) h.fresh h.pos

/-! ## The encodings -/

theorem waitStatus_toNat (c : UInt32) : (waitStatus c).toNat =
    if 128 ≤ c.toNat ∧ c.toNat < 160 then c.toNat else c.toNat * 256 % 2 ^ 32 := by
  have hlt := c.toNat_lt
  have hsmall : (128 ≤ toInt c.toNat ∧ toInt c.toNat < 128 + 32) ↔
      128 ≤ c.toNat ∧ c.toNat < 160 := by
    rw [toInt]
    split <;> omega
  rw [waitStatus]
  by_cases h : 128 ≤ c.toNat ∧ c.toNat < 160
  · rw [if_pos (hsmall.mpr h), if_pos h]
  · rw [if_neg (fun h' => h (hsmall.mp h')), if_neg h, UInt32.toNat_shiftLeft, Nat.shiftLeft_eq]
    rfl

/-- A death by signal. -/
theorem waitStatus_signal {s : UInt32} (h1 : 1 ≤ s.toNat) (h31 : s.toNat ≤ 31) :
    (waitStatus (128 + s)).toNat = 128 + s.toNat := by
  have hadd : (128 + s).toNat = 128 + s.toNat := by
    rw [UInt32.toNat_add]
    change (128 + s.toNat) % 2 ^ 32 = _
    omega
  rw [waitStatus_toNat, hadd, if_pos (by omega)]

/-- **When the status of an exit says what it was.** -/
theorem status_unambiguous_iff (h : Awaited k p) (c : UInt32) :
    ((k.exitStatus p c = some 0 ↔ c = 0) ∧
      ∀ s : UInt32, 1 ≤ s.toNat → s.toNat ≤ 31 → k.exitStatus p c ≠ k.signalStatus p s) ↔
      Plain c := by
  have hlt := c.toNat_lt
  have hst := waitStatus_toNat c
  have hz : k.exitStatus p c = some 0 ↔ (waitStatus c).toNat = 0 := by
    rw [exitStatus_eq h, Option.some.injEq, ← UInt32.toNat_inj]
    rfl
  have hc : c = 0 ↔ c.toNat = 0 := by rw [← UInt32.toNat_inj]; rfl
  have hs : ∀ s : UInt32, 1 ≤ s.toNat → s.toNat ≤ 31 →
      (k.exitStatus p c = k.signalStatus p s ↔ (waitStatus c).toNat = 128 + s.toNat) := by
    intro s h1 h31
    have hs0 : s ≠ 0 := fun h0 => by rw [h0] at h1; exact absurd h1 (by decide)
    rw [exitStatus_eq h, signalStatus_eq h hs0, Option.some.injEq, ← UInt32.toNat_inj,
      waitStatus_signal h1 h31]
  rw [hz, hc, Plain, hc]
  constructor
  · rintro ⟨hzero, hsig⟩
    constructor
    · by_contra hno
      rw [if_neg (by omega)] at hst
      exact hno (.inl (hzero.mp (by omega)))
    · rintro ⟨hlo, hhi⟩
      rw [if_pos (by omega)] at hst
      have hnum : (UInt32.ofNat (c.toNat - 128)).toNat = c.toNat - 128 :=
        UInt32.toNat_ofNat_of_lt' (by
        change c.toNat - 128 < 2 ^ 32
        omega)
      refine hsig (UInt32.ofNat (c.toNat - 128)) (by omega) (by omega)
        ((hs _ (by omega) (by omega)).mpr ?_)
      omega
  · rintro ⟨hlow, hsig⟩
    refine ⟨?_, fun s h1 h31 heq => ?_⟩
    · split at hst <;> omega
    · have := (hs s h1 h31).mp heq
      split at hst <;> omega

/-- The child of the first process has its turn. -/
theorem awaited_child : Awaited (Machine.settled.follow Machine.child 4).k 0 where
  running := by decide +kernel
  parent := by decide +kernel
  other := by decide +kernel
  room := by decide +kernel
  fresh := by decide +kernel
  pos := by decide +kernel

/-- It exits with `3`. -/
theorem status_unambiguous_three :
    (((Machine.settled.follow Machine.child 4).k.exitStatus 0 3 = some 0 ↔ (3 : UInt32) = 0) ∧
      ∀ s : UInt32, 1 ≤ s.toNat → s.toNat ≤ 31 →
        (Machine.settled.follow Machine.child 4).k.exitStatus 0 3 ≠
          (Machine.settled.follow Machine.child 4).k.signalStatus 0 s) ↔ Plain 3 :=
  status_unambiguous_iff awaited_child 3

/-- With `137` it seems to have been killed by the signal 9, and with `2 ^ 24` to have done well. -/
theorem status_ambiguous :
    (Machine.settled.follow Machine.child 4).k.exitStatus 0 137 =
        (Machine.settled.follow Machine.child 4).k.signalStatus 0 9 ∧
      (Machine.settled.follow Machine.child 4).k.exitStatus 0 0x1000000 = some 0 := by
  constructor <;> decide +kernel

end Kernel

end Aurisys
