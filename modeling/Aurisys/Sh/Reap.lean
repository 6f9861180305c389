import Aurisys.Kernel.Notes
import Aurisys.Kernel.Status

/-!
# Children that have finished

In front of each prompt the shell asks `waitpid` for `-1`, by which it means any child, until there
is none. In the kernel any child is `0`, and `-1` is the number of a process like any other. There
is none with it, so that `wait_for` says so, and the shell takes this for the end. A child in the
background is never collected.

The messages are left out, and what a job has only for them.

## Main definitions

* `Kernel.waitFor`, `Kernel.waitpidNow` — `wait_for` that does not wait, and `waitpid`
* `Sh.promptLoop` — what the shell does in front of a prompt
* `Sh.Collects` — what it is meant to do

## Main results

* `Kernel.waitFor_zero`, `Kernel.waitFor_minus` — any child, and what the shell asks for
* `Sh.collects_nothing`
-/

namespace Aurisys

open Paging

/-! ## The code -/

/-- There is no such process. -/
def kErrSrch : ℤ := 3

/-- It is no child. -/
def kErrChild : ℤ := 10

namespace Kernel

variable {H : Type} [PageAlloc H]

/-- `(uint32_t)pid`. -/
def pidWord (pid : ℤ) : ℕ := (pid % 2 ^ 32).toNat

/-- A turn of the loop of `wait_for`, up to where the notes are looked at. `none` is the panic in
`reap`. -/
def afterReap (k : Kernel H) : Option (Kernel H) :=
  (k.setTask k.current { k.tasks k.current with wakePending := false }).reap

/-- `wait_for` with `nowait`: what it returns, the code that it has, and the state. Its loop is left
in the first turn. -/
def waitFor (k : Kernel H) (pid : ℤ) : Option (ℤ × UInt32 × Kernel H) :=
  k.afterReap.map fun k =>
    let had := takeDone (k.tasks k.current) (pidWord pid)
    let got := had.elim 0 fun r => toInt r.1.pid
    let code := had.elim 0 fun r => r.1.code
    let k := k.collect (pidWord pid)
    let want := k.find (pidWord pid)
    if got ≠ 0 then (got, code, k)
    else if pid ≠ 0 ∧ want = none then (-kErrSrch, code, k)
    else if pid ≠ 0 ∧ (want.any fun i => (k.tasks i).ppid ≠ (k.tasks k.current).pid)
      then (-kErrChild, code, k)
    else (0, code, k.setTask k.current { k.tasks k.current with waiting := false, waitPid := pid })

/-- `waitpid` with `kWNohang`, through `SYS_wait`: what it returns, and the status. -/
def waitpidNow (k : Kernel H) (pid : ℤ) : Option (ℤ × UInt32 × Kernel H) :=
  (k.waitFor pid).map fun (r, code, k) => (r, waitStatus (if 0 < r then code else 0), k)

end Kernel

namespace Sh

def kMaxJobs : ℕ := 8

/-- `job`. -/
structure JobSlot where
  pid : ℤ
  running : Bool
  status : UInt32

/-- `g_jobs` and `g_fg`. -/
structure Shell where
  jobs : Fin kMaxJobs → JobSlot
  fg : List ℤ

/-- `find_job`. -/
def findJob (s : Shell) (pid : ℤ) : Option (Fin kMaxJobs) :=
  (List.finRange kMaxJobs).find? fun i => (s.jobs i).running ∧ (s.jobs i).pid = pid

/-- `fg_drop`. -/
def fgDrop (s : Shell) (pid : ℤ) : Shell :=
  { s with fg := s.fg.map fun q => if q = pid then 0 else q }

/-- The body of the loop in front of the prompt, once there is a child. -/
def Shell.mark (s : Shell) (got : ℤ) (st : UInt32) : Shell :=
  let jobs := (findJob s got).elim s.jobs fun k =>
    Function.update s.jobs k { s.jobs k with running := false, status := st }
  fgDrop { s with jobs := jobs } got

variable {H : Type} [PageAlloc H]

/-- The loop in front of the prompt. -/
def promptLoop : ℕ → Kernel H → Shell → Option (Kernel H × Shell)
  | 0, _, _ => none
  | n + 1, k, s =>
    match k.waitpidNow (-1) with
    | none => none
    | some (got, st, k) => if got ≤ 0 then some (k, s) else promptLoop n k (s.mark got st)

/-- The children of the shell that have finished and are not collected: the kernel has told it of
them, or is about to. -/
def uncollected (k : Kernel H) : List Note := k.afterReap.elim [] fun k => (k.tasks k.current).done

/-- **What the loop is meant to do**: the call returns one of the children, and when the loop comes
to its end, the list of them is empty and the job of each is marked. -/
structure Collects (k : Kernel H) (s : Shell) : Prop where
  returns : ∃ got st k', k.waitpidNow (-1) = some (got, st, k') ∧ ∃ n ∈ uncollected k, got = n.pid
  empties : ∃ fuel k' s', promptLoop fuel k s = some (k', s') ∧ (k'.tasks k'.current).done = [] ∧
    ∀ n ∈ uncollected k, ∀ i, (s.jobs i).pid = n.pid → (s'.jobs i).running = false

end Sh

/-! ## What the kernel takes for any child -/

namespace Kernel

variable {H : Type} [PageAlloc H] {k k' : Kernel H}

theorem table_afterReap (ht : Table k) (hn : Named k) (h : k.afterReap = some k') :
    Table k' ∧ Named k' := by
  have hset : Wakes k (k.setTask k.current { k.tasks k.current with wakePending := false }) :=
    .setTask ⟨rfl, rfl, rfl, rfl⟩
  have ht' := ht.calm hset.calm
  exact ⟨ht'.calm (calm_reap h), (hn.tells ht hset.tells).tells ht' (tells_reap h)⟩

omit [PageAlloc H] in
/-- **No process has the number that the shell asks for**, and no note has it. -/
theorem not_found (ht : Table k) (hn : Named k) :
    takeDone (k.tasks k.current) (pidWord (-1)) = none ∧ k.find (pidWord (-1)) = none := by
  have hword : pidWord (-1) = 2 ^ 32 - 1 := by decide
  have hslot : ∀ j : Fin kMaxTask, (j : ℕ) + 1 ≠ 2 ^ 32 - 1 := by
    intro j
    have hj : (j : ℕ) < 8 := j.isLt
    omega
  rw [hword]
  constructor
  · have hidx : (k.tasks k.current).done.findIdx? (fun n => decide (2 ^ 32 - 1 = 0 ∨ n.pid =
        2 ^ 32 - 1)) = none := by
      rw [List.findIdx?_eq_none_iff]
      intro n hmem
      obtain ⟨j, hj⟩ := hn k.current n hmem
      exact decide_eq_false fun h => h.elim (by decide) fun h => hslot j (hj.symm.trans h)
    rw [takeDone, hidx]
    rfl
  · cases hf : k.find (2 ^ 32 - 1) with
    | none => rfl
    | some i =>
      obtain ⟨-, hi⟩ := ht.find_iff.mp hf
      exact absurd hi.symm (hslot i)

/-- **What the shell asks for**: there is no such process. -/
theorem waitFor_minus (ht : Table k) (hn : Named k) (h : k.afterReap = some k') :
    k.waitFor (-1) = some (-kErrSrch, 0, k') := by
  obtain ⟨ht', hn'⟩ := table_afterReap ht hn h
  obtain ⟨htake, hfind⟩ := not_found ht' hn'
  have hcollect : k'.collect (pidWord (-1)) = k' := by rw [collect, htake]; rfl
  rw [waitFor, h, Option.map_some]
  dsimp only
  rw [htake, hcollect, hfind]
  have hnone : ¬(0 : ℤ) ≠ 0 := not_not_intro rfl
  exact congrArg some ((if_neg hnone).trans (if_pos ⟨by decide, rfl⟩))

/-- **Any child** is `0`: the first one of them is returned. -/
theorem waitFor_zero {n : Note} {ns : List Note} (ht : Table k) (hn : Named k)
    (h : k.afterReap = some k')
    (hdone : (k'.tasks k'.current).done = n :: ns) :
    k.waitFor 0 = some ((n.pid : ℤ), n.code, k'.collect 0) := by
  have hn' := (table_afterReap ht hn h).2
  obtain ⟨j, hj⟩ := hn' k'.current n (by rw [hdone]; exact List.mem_cons_self)
  have hpid : toInt n.pid = n.pid := by
    have hlt : (j : ℕ) < 8 := j.isLt
    rw [toInt, if_pos (by omega)]
  have hpos : (n.pid : ℤ) ≠ 0 := by omega
  have htake : ∃ t, takeDone (k'.tasks k'.current) 0 = some (n, t) := by
    rw [takeDone, hdone]
    exact ⟨_, rfl⟩
  obtain ⟨t, htake⟩ := htake
  have hword : pidWord 0 = 0 := rfl
  rw [waitFor, h, Option.map_some]
  dsimp only
  rw [hword, htake]
  have hgot : toInt n.pid ≠ 0 := hpid ▸ hpos
  exact (congrArg some (if_pos hgot)).trans (congrArg (fun p : ℤ => some (p,
    n.code, k'.collect 0)) hpid)

end Kernel

/-! ## What the shell collects -/

namespace Sh

open Kernel Machine

variable {H : Type} [PageAlloc H]

/-- **The shell collects nothing**: at any time, `waitpid` tells it that there is no such process,
and the loop in front of the prompt is left with all children and all jobs as they were. -/
theorem collects_nothing {m : Mmu H} {kstack : ℕ} {kernCode : UInt32} {w : Machine H}
    (hr : Reachable (boot m kstack kernCode) w) (s : Shell) {n : Note} (hn : n ∈ uncollected w.k) :
    ¬Collects w.k s ∧ ∃ k', w.k.waitpidNow (-1) = some (-kErrSrch, 0, k') ∧
      (∀ fuel, promptLoop (fuel + 1) w.k s = some (k', s)) ∧ (k'.tasks k'.current).done =
      uncollected w.k := by
  obtain ⟨ht, hnamed⟩ := named_of_reachable hr
  cases hreap : w.k.afterReap with
  | none =>
    rw [uncollected, hreap] at hn
    exact absurd hn List.not_mem_nil
  | some k' =>
    have hcall : w.k.waitpidNow (-1) = some (-kErrSrch, 0, k') := by
      rw [waitpidNow, waitFor_minus ht.kernel hnamed hreap]
      rfl
    refine ⟨fun h => ?_, k', hcall, fun fuel => ?_, ?_⟩
    · obtain ⟨got, st, k'', hcall', n', -, hgot⟩ := h.returns
      have hgot' : -kErrSrch = got := congrArg Prod.fst (Option.some.inj (hcall.symm.trans hcall'))
      have hneg : (-kErrSrch : ℤ) < 0 := by decide
      omega
    · rw [promptLoop, hcall]
      rfl
    · rw [uncollected, hreap]
      rfl

/-- A child of the first process has exited, and the first process has its turn. -/
def waited : Machine Pages.Bump := settled.follow (child ++ [.exit 7, .unblock 0, .pick, .switch]) 8

/-- The child is a job of the shell. -/
def oneJob : Shell := ⟨fun _ => ⟨2, true, 0⟩, []⟩

theorem collects_nothing_child : ¬Collects waited.k oneJob ∧ ∃ k', waited.k.waitpidNow (-1) =
    some (-kErrSrch, 0, k') ∧
    (∀ fuel, promptLoop (fuel + 1) waited.k oneJob = some (k', oneJob)) ∧
    (k'.tasks k'.current).done = uncollected waited.k :=
  collects_nothing (reachable_follow (by decide +kernel)) oneJob (n := ⟨2, 7⟩) (by decide +kernel)

/-- The child has exited with `7`, and is not collected. -/
theorem child_stays : uncollected waited.k = [⟨2, 7⟩] ∧ ¬Collects waited.k oneJob := by
  refine ⟨by decide +kernel, fun h => ?_⟩
  obtain ⟨got, st, k', hcall, n, -, hgot⟩ := h.returns
  have hcode : (waited.k.waitpidNow (-1)).map Prod.fst = some (-3) := by decide +kernel
  rw [hcall] at hcode
  have hcode : got = -3 := Option.some.inj hcode
  omega

end Sh

end Aurisys
