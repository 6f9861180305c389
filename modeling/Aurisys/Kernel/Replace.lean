import Aurisys.Kernel.Exec
import Aurisys.Kernel.Fork

/-!
# A failed `exec`

`replace` that returns false should leave the process as it was. It does when the space or the
frames are short. When it has got these, the flag `owns_frames` is set and no failure puts it back;
every failure from the arguments on makes the fresh space the active one, which is then destroyed;
and the message that says what went wrong goes through descriptor `1` of the process, whose
position it moves.

## Main definitions

* `refusal` — the file is turned down before the arguments are looked at, and with which message
* `Silent` — a message leaves descriptor `1` as it is
* `Kept` — all or nothing

## Main results

* `loadInto_refused`, `loadInto_late`
* `replace_kept_iff`
-/

namespace Aurisys

open Paging Pages PageAlloc Mmu

/-! ## What is said -/

theorem OFile.put_node (fs : Files) (b : List UInt8 × OFile) (c : UInt8) :
    (OFile.put fs b c).2.n.type = b.2.n.type ∧ (OFile.put fs b c).2.n.internal =
    b.2.n.internal := by
  simp only [OFile.put]
  split <;> split <;> exact ⟨rfl, rfl⟩

theorem OFile.foldl_put_node (fs : Files) (s : List UInt8) (b : List UInt8 × OFile) :
    (s.foldl (OFile.put fs) b).2.n.type = b.2.n.type ∧
      (s.foldl (OFile.put fs) b).2.n.internal = b.2.n.internal := by
  induction s generalizing b with
  | nil => exact ⟨rfl, rfl⟩
  | cons c s ih =>
    obtain ⟨h1, h2⟩ := ih (OFile.put fs b c)
    obtain ⟨h3, h4⟩ := OFile.put_node fs b c
    exact ⟨h1.trans h3, h2.trans h4⟩

theorem OFile.printf_node (fs : Files) (e : OFile) (s : List UInt8) :
    (e.printf fs s).n.type = e.n.type ∧ (e.printf fs s).n.internal = e.n.internal := by
  have h := OFile.foldl_put_node fs s ([], e)
  simp only [OFile.printf]
  split
  · exact h
  · exact h

namespace Kernel

variable {H : Type} {k k' : Kernel H} {fs : Files} {a : ExecArgs H} {fd : Fin kMaxFd}

/-! ## The descriptors of the process that runs -/

def setFdTable (t : Task) (F : Fin kMaxFd → Option OFile) : Task := { t with fd := F }

@[simp] theorem setFdTable_sp (t : Task) (F : Fin kMaxFd → Option OFile) :
    (setFdTable t F).sp = t.sp := rfl

/-- Change all descriptors of the process that runs. -/
def setFds (k : Kernel H) (F : Fin kMaxFd → Option OFile) : Kernel H :=
  k.setTask k.current (setFdTable (k.tasks k.current) F)

@[simp] theorem setFds_current (F : Fin kMaxFd → Option OFile) :
    (k.setFds F).current = k.current := rfl

@[simp] theorem setFds_task (F : Fin kMaxFd → Option OFile) :
    (k.setFds F).tasks k.current = setFdTable (k.tasks k.current) F :=
  Function.update_self _ _ _

@[simp] theorem fds_setFds (F : Fin kMaxFd → Option OFile) : (k.setFds F).fds = F := by
  rw [fds, setFds_current, setFds_task]
  rfl

@[simp] theorem setFds_setFds (F G : Fin kMaxFd → Option OFile) :
    (k.setFds F).setFds G = k.setFds G := by
  rw [setFds, setFds_current, setFds_task, setFds, setTask_setTask]
  rfl

@[simp] theorem setFds_fds : k.setFds k.fds = k := by
  have h : Function.update k.tasks k.current (k.tasks k.current) = k.tasks :=
    Function.update_eq_self _ _
  exact congrArg (fun t => { k with tasks := t }) h

theorem setFd_eq (e : Option OFile) : k.setFd fd e = k.setFds (Function.update k.fds fd e) := rfl

/-- A file that is not the end of a pipe is closed without further ado. -/
theorem fdClose_eq (h : ∀ e, k.fds fd = some e → e.n.type = .fifo → e.n.internal = 0) :
    k.fdClose fd = k.setFds (Function.update k.fds fd none) := by
  have hun : ((k.tasks k.current).fd fd).elim k k.fdUnshare = k := by
    cases he : (k.tasks k.current).fd fd with
    | none => rfl
    | some e =>
      rw [Option.elim_some, fdUnshare, if_pos]
      by_cases ht : e.n.type = .fifo
      · exact Or.inr (h e he ht)
      · exact Or.inl ht
  simp only [fdClose, closeIn, hun]
  rfl

theorem fdUnshare_mmu (f : OFile) : (k.fdUnshare f).mmu = k.mmu := by
  have hunblock : ∀ (k : Kernel H) i, (k.unblock i).mmu = k.mmu := by
    intro k i
    rw [unblock]
    split <;> rfl
  have helim : ∀ (o : Option (Fin kMaxTask)) (k : Kernel H), (o.elim k k.unblock).mmu = k.mmu := by
    intro o k
    cases o with
    | none => rfl
    | some i => exact hunblock k i
  rw [fdUnshare]
  split
  · rfl
  · simp only [setPipes_mmu, helim]

theorem fdClose_mmu : (k.fdClose fd).mmu = k.mmu := by
  simp only [fdClose, closeIn, setTask_mmu]
  cases (k.tasks k.current).fd fd with
  | none => rfl
  | some e => exact fdUnshare_mmu e

theorem printf_eq (s : List UInt8) :
    k.printf fs s = k.setFds (Function.update k.fds 1 ((k.fds 1).map fun e => e.printf fs s)) := by
  rw [printf]
  split
  · next h =>
    rw [h, Option.map_none, ← h, Function.update_eq_self, setFds_fds]
  · next e h => rw [h, Option.map_some, setFd_eq]

/-! ## A file that is turned down -/

/-- Descriptor `1` and the others after a message. -/
def said (fs : Files) (F : Fin kMaxFd → Option OFile) (s : List UInt8) :
    Fin kMaxFd → Option OFile :=
  Function.update F 1 ((F 1).map fun e => e.printf fs s)

/-- Where the program headers are read from: a header that puts them past `2 ^ 31` is not
followed. -/
def headersAt (fs : Files) (n : Node) : ℕ :=
  let header := fs.read n 0 elfhdrBytes
  if toInt (phoff (record header.2)) < 0 then advance 0 header.1 else phoff (record header.2)

/-- The file starts with a header of a kind that is known, and has its program headers. -/
def Readable (fs : Files) (n : Node) : Prop :=
  let header := fs.read n 0 elfhdrBytes
  let eh := record header.2
  (header.1 = elfhdrBytes ∧ elfOk eh = true) ∧ ¬(8 < phnum eh ∨ phentsize eh < 32) ∧
    (fs.read n (headersAt fs n) (phnum eh * phdrBytes)).1 = (phnum eh * phdrBytes : ℕ)

instance (fs : Files) (n : Node) : Decidable (Readable fs n) :=
  inferInstanceAs (Decidable (_ ∧ _ ∧ _))

/-- The message with which a file is turned down before anything but the file is looked at, which is
empty when there are too many arguments. -/
def refusal (fs : Files) (F : Fin kMaxFd → Option OFile) (path : List UInt8)
    (argv : List (List UInt8)) : Option (List UInt8) :=
  if 16 < argv.length then some []
  else
    match fs.resolve path, (List.finRange kMaxFd).find? fun i => (F i).isNone with
    | some n, some _ =>
      if Readable fs n then none else some (path ++ text ": not an executable\n")
    | _, _ => some (path ++ text ": no such file\n")

/-- A message leaves descriptor `1` as it is: the descriptor is closed, or what is written to it
moves nothing. -/
def Silent (fs : Files) (F : Fin kMaxFd → Option OFile) (s : List UInt8) : Prop :=
  ∀ e, F 1 = some e → e.printf fs s = e

theorem said_eq_iff {F : Fin kMaxFd → Option OFile} {s : List UInt8} :
    said fs F s = F ↔ Silent fs F s := by
  rw [said, Function.update_eq_self_iff, Silent]
  cases F 1 with
  | none => simp
  | some e => simp

/-- Opening a file, saying something and closing the file again: only the message is left. -/
theorem said_of_open {F : Fin kMaxFd → Option OFile} (hfd : F fd = none) (e : OFile)
    (s : List UInt8) :
    Function.update (said fs (Function.update F fd (some e)) s) fd none = said fs F s := by
  funext i
  by_cases hi : i = fd
  · subst hi
    rw [Function.update_self, said]
    by_cases h1 : i = 1
    · subst h1
      rw [Function.update_self, hfd, Option.map_none]
    · rw [Function.update_of_ne h1, hfd]
  · rw [Function.update_of_ne hi, said, said]
    by_cases h1 : i = 1
    · subst h1
      rw [Function.update_self, Function.update_self, Function.update_of_ne hi]
    · rw [Function.update_of_ne h1, Function.update_of_ne h1, Function.update_of_ne hi]

/-- The kernel with a file open at `fd`. -/
def opened (k : Kernel H) (fd : Fin kMaxFd) (e : OFile) : Kernel H :=
  k.setFds (Function.update k.fds fd (some e))

theorem fds_opened (e : OFile) : (k.opened fd e).fds = Function.update k.fds fd (some e) :=
  fds_setFds _

@[simp] theorem setFd_opened (e e' : OFile) :
    (k.opened fd e).setFd fd (some e') = k.opened fd e' := by
  rw [setFd_eq, fds_opened, opened, setFds_setFds, Function.update_idem, opened]

theorem fdRead_opened (e : OFile) (len : ℕ) : fdRead fs (k.opened fd e) fd len =
    ((fs.read e.n e.pos len).1, (fs.read e.n e.pos len).2,
      k.opened fd { e with pos := advance e.pos (fs.read e.n e.pos len).1 }) := by
  have h : (k.opened fd e).fds fd = some e := by rw [fds_opened, Function.update_self]
  simp only [fdRead, h, setFd_opened]

theorem lseek_opened (e : OFile) (off : ℕ) : (k.opened fd e).lseek fd off =
    k.opened fd { e with pos := if toInt off < 0 then e.pos else off } := by
  have h : (k.opened fd e).fds fd = some e := by rw [fds_opened, Function.update_self]
  simp only [lseek, h]
  split
  · rfl
  · exact setFd_opened _ _

theorem give_opened (hfd : k.fds fd = none) {e : OFile}
    (he : e.n.type = .fifo → e.n.internal = 0) (why : String) :
    give fs a fd (k.opened fd e) why
      = some (none, k.setFds (said fs k.fds (a.path ++ text why))) := by
  set s := a.path ++ text why with hs
  have hp : (k.opened fd e).printf fs s
      = k.setFds (said fs (Function.update k.fds fd (some e)) s) := by
    rw [printf_eq, fds_opened, opened, setFds_setFds]
    rfl
  rw [give, ← hs, hp, fdClose_eq, fds_setFds, setFds_setFds, said_of_open hfd]
  intro e' he' ht
  rw [fds_setFds, said] at he'
  by_cases h1 : fd = 1
  · subst h1
    rw [Function.update_self, Function.update_self, Option.map_some, Option.some.injEq] at he'
    obtain ⟨h2, h3⟩ := OFile.printf_node fs e s
    rw [← he'] at ht ⊢
    rw [h3]
    exact he (h2 ▸ ht)
  · rw [Function.update_of_ne h1, Function.update_self, Option.some.injEq] at he'
    exact he' ▸ he (he' ▸ ht)

/-- **A file that is turned down.** Only what the message does is left. -/
theorem loadInto_refused {s : List UInt8} (h : refusal fs k.fds a.path a.argv = some s) :
    loadInto fs k a = some (none, k.setFds (said fs k.fds s)) := by
  rw [refusal] at h
  rw [loadInto]
  split at h
  · next hargc =>
    obtain rfl := Option.some.inj h
    rw [if_pos hargc, said_eq_iff.mpr (fun _ _ => rfl), setFds_fds]
  · next hargc =>
    rw [if_neg hargc]
    split at h
    · next n fd hn hfind =>
      have hfd : k.fds fd = none := by simpa using List.find?_some hfind
      have hopen : fdOpen fs k a.path = (some fd, k.opened fd ⟨n, 0, 0⟩) := by
        simp only [fdOpen, hn, hfind]
        rfl
      have hpipe : n.type = .fifo → n.internal = 0 := fs.resolve_pipe _ _ hn
      split at h
      · cases h
      · next hbad =>
        obtain rfl := Option.some.inj h
        simp only [hopen, fdRead_opened, lseek_opened]
        by_cases h1 : (fs.read n 0 elfhdrBytes).1 = elfhdrBytes ∧
            elfOk (record (fs.read n 0 elfhdrBytes).2)
        · rw [if_neg (by simpa using h1)]
          by_cases h2 : 8 < phnum (record (fs.read n 0 elfhdrBytes).2) ∨
              phentsize (record (fs.read n 0 elfhdrBytes).2) < 32
          · rw [if_pos h2]
            exact give_opened hfd hpipe _
          · rw [if_neg h2]
            exact (if_pos fun he => hbad ⟨h1, h2, he⟩).trans (give_opened hfd hpipe _)
        · rw [if_pos (by simpa [imp_iff_not_or] using h1)]
          exact give_opened hfd hpipe _
    · next hno =>
      obtain rfl := Option.some.inj h
      have hopen : fdOpen fs k a.path = (none, k) := by
        rw [fdOpen]
        split
        · rfl
        · next n hn =>
          split
          · rfl
          · next fd hfind => exact absurd hfind (hno n fd hn)
      rw [hopen]
      simp only [printf_eq]
      rfl

/-! ## A failure further on -/

theorem mapRange_ok (m : Mmu H) {s : ℕ} (hs : s ≠ 0) (va pa n : ℕ)
    (hva : 0x40000000 ≤ va) (hn : va + n * 4096 ≤ 0x40400000) :
    (m.mapRange s va pa n).1 = true := by
  induction n with
  | zero => rfl
  | succ n ih =>
    have hr := ih (le_trans (Nat.add_le_add_left (Nat.mul_le_mul_right 4096 n.le_succ) va) hn)
    rcases h : m.mapRange s va pa n with ⟨b, m'⟩
    obtain rfl : b = true := by rw [← hr, h]
    simp only [Mmu.mapRange, h, Mmu.mapPage, if_neg hs]
    rcases hu : Mmu.userTable (va + n * 4096) with - | u
    · simp only [Mmu.userTable] at hu
      split at hu
      · cases hu
      · split at hu
        · cases hu
        · omega
    · dsimp only
      split <;> rfl

/-- The three ranges of an image are in the user half, so it can always be mapped. -/
theorem mapImage_ok (m : Mmu H) {t : Task} (hs : t.sp ≠ 0) : (mapImage m t).1 = true := by
  have ok : ∀ (m : Mmu H) (va pa n : ℕ), 0x40000000 ≤ va → va + n * 4096 ≤ 0x40400000 →
      (!(m.mapRange t.sp va pa n).1) = false := by
    intro m va pa n hva hn
    rw [mapRange_ok m hs va pa n hva hn, Bool.not_true]
  rw [mapImage]
  dsimp only
  rw [ok _ _ _ _ (by simp [kAppBase]) (by simp [kAppBase, kCodeBytes]), if_neg Bool.false_ne_true,
    ok _ _ _ _ (by simp [kStackBase]) (by simp [kStackBase, kStackBytes]),
    if_neg Bool.false_ne_true]
  exact mapRange_ok _ hs _ _ _ (by simp [kArenaVA]) (by simp [kArenaVA, kArenaBytes])

/-- **A failure further on** leaves the space of the image active. -/
theorem loadProgram_fails {eh ph : Bytes} (hs : (k.tasks k.current).sp ≠ 0)
    (h : loadProgram fs a fd eh ph k = some (none, k')) :
    k'.mmu.current = (k.tasks k.current).sp := by
  have hswitch : ∀ m : Mmu H,
      (m.spaceSwitch (k.tasks k.current).sp).current = (k.tasks k.current).sp := by
    intro m
    rw [Mmu.spaceSwitch, if_neg hs]
  rcases hm : mapImage k.mmu (k.tasks k.current) with ⟨ok, m⟩
  obtain rfl : ok = true := by
    have := mapImage_ok k.mmu hs
    rwa [hm] at this
  simp only [loadProgram, hm, Bool.not_true, Bool.false_eq_true, if_false] at h
  split at h
  · cases h
    rw [fdClose_mmu]
    exact hswitch _
  · split at h
    · cases h
    · split at h
      · cases h
        rw [fdClose_mmu]
        exact hswitch _
      · cases h

theorem loadInto_late (hs : (k.tasks k.current).sp ≠ 0) (hr : refusal fs k.fds a.path a.argv = none)
    (h : loadInto fs k a = some (none, k')) : k'.mmu.current = (k.tasks k.current).sp := by
  rw [refusal] at hr
  split at hr
  · cases hr
  · next hargc =>
    split at hr
    · next n fd hn hfind =>
      split at hr
      · next hread =>
        have hopen : fdOpen fs k a.path = (some fd, k.opened fd ⟨n, 0, 0⟩) := by
          simp only [fdOpen, hn, hfind]
          rfl
        obtain ⟨h1, h2, h3⟩ := hread
        rw [loadInto, if_neg hargc] at h
        simp only [hopen, fdRead_opened, lseek_opened] at h
        rw [if_neg (by simpa using h1), if_neg h2] at h
        have := loadProgram_fails (by simpa [opened] using hs)
          ((if_neg (not_not.mpr h3)).symm.trans h)
        simpa [opened] using this
      · cases hr
    · cases hr

/-! ## The frames of an image -/

section

variable [PageAlloc H] {h₀ : H} {ps : List ℕ}

/-- There are runs of pages for the code, the stack and the arena. -/
def HasFrames (h : H) : Prop :=
  let code := allocN h (kCodeBytes / 4096)
  let stack := allocN code.2 (kStackBytes / 4096)
  ¬(code.1 = 0 ∨ stack.1 = 0 ∨ (allocN stack.2 (kArenaBytes / 4096)).1 = 0)

/-- **`give_frames`**: three new runs, or nothing. -/
theorem giveFrames_spec (m : Mmu H) (t : Task) :
    (HasFrames m.heap → ∃ code stack heap h, giveFrames m t =
        (true, setFrames t code stack heap, m.setHeap h) ∧
        ∀ h₀ ps, Grew h₀ m.heap ps → Grew h₀ h (code :: stack :: heap :: ps)) ∧
      (¬HasFrames m.heap → ∃ h, giveFrames m t =
        (false, noFrames t, m.setHeap h) ∧
        ∀ h₀ ps, Grew h₀ m.heap ps → Grew h₀ h ps) := by
  set code := allocN m.heap (kCodeBytes / 4096) with hcode
  set stack := allocN code.2 (kStackBytes / 4096) with hstack
  set heap := allocN stack.2 (kArenaBytes / 4096) with hheap
  have hg : ∀ h₀ ps, Grew h₀ m.heap ps →
      Grew h₀ heap.2 ([code.1, stack.1, heap.1].filter (· ≠ 0) ++ ps) := by
    intro h₀ ps hg
    have h1 := hg.allocOr (show kCodeBytes / 4096 < 2 ^ 16 by decide)
    have h2 := h1.allocOr (show kStackBytes / 4096 < 2 ^ 16 by decide)
    have := h2.allocOr (show kArenaBytes / 4096 < 2 ^ 16 by decide)
    rw [← List.append_assoc, ← List.append_assoc, ← List.filter_append,
      ← List.filter_append] at this
    exact this.perm (((List.reverse_perm [code.1, stack.1, heap.1]).filter _).append_right ps)
  constructor
  · intro hf
    refine ⟨code.1, stack.1, heap.1, heap.2, if_neg hf, fun h₀ ps hg' => ?_⟩
    obtain ⟨h1, h2, h3⟩ : code.1 ≠ 0 ∧ stack.1 ≠ 0 ∧ heap.1 ≠ 0 := by simpa [HasFrames] using hf
    simpa [h1, h2, h3] using hg h₀ ps hg'
  · intro hf
    refine ⟨_, if_pos (not_not.mp hf), fun h₀ ps hg' => ?_⟩
    exact (hg h₀ ps hg').freeNonzero

/-! ## All or nothing -/

/-- A process runs in a space of its own, which is the active one. -/
structure Running (k : Kernel H) : Prop where
  /-- Its space is the active one, -/
  active : k.mmu.current = (k.tasks k.current).sp
  /-- and is out. -/
  live : (live k.mmu.heap (k.tasks k.current).sp).isSome

theorem Running.ne_zero (hr : Running k) : (k.tasks k.current).sp ≠ 0 := by
  intro h0
  have := hr.live
  rw [h0, live_zero] at this
  cases this

/-- Nothing happened to the process that made the call: every field of it is as before, its space
is the active one, and everything that was handed out before is still handed out. -/
structure Kept (k k' : Kernel H) : Prop where
  /-- The entry is as it was, -/
  task : k'.tasks k.current = k.tasks k.current
  /-- its space is active, -/
  active : k'.mmu.current = (k'.tasks k.current).sp
  /-- and nothing was given back. -/
  frames : ∀ p b, live k.mmu.heap p = some b → live k'.mmu.heap p = some b

/-- The task with a new image, as `load_into` finds it. -/
def imaged (t : Task) (fresh code stack heap : ℕ) : Task :=
  setOwns (setFrames (setSp t fresh) code stack heap)

/-- What `replace` does when it returns false: it got no memory and has kept the process, or
`load_into` failed and what it left is put back. -/
theorem replace_false (hr : Running k) (h : replace fs k a = some (false, k')) :
    (¬(HasPages k.mmu.heap 7 ∧ HasFrames (takePages k.mmu.heap 7)) ∧ Kept k k') ∨
      (HasPages k.mmu.heap 7 ∧ HasFrames (takePages k.mmu.heap 7)) ∧
        ∃ m fresh code stack heap k₂, fresh ≠ 0 ∧ fresh ≠ (k.tasks k.current).sp ∧
          m.current = k.mmu.current ∧ (m.spaces fresh).cow = 0 ∧
          Grew k.mmu.heap m.heap (code :: stack :: heap ::
            (ownPages m fresh ++ spacePages m fresh)) ∧
          loadInto fs ((k.setMmu m).setTask k.current
            (imaged (k.tasks k.current) fresh code stack heap)) a = some (none, k₂) ∧
          k' = k₂.undo (k.tasks k.current) fresh := by
  rw [replace] at h
  dsimp only at h
  rw [if_neg hr.ne_zero] at h
  by_cases hp : HasPages k.mmu.heap 7
  · obtain ⟨m, hm, hcur, hcow, hheap, hgrew⟩ := spaceCreate_grew hp
    have hne : pageAt k.mmu.heap 0 ≠ (k.tasks k.current).sp :=
      (hp.ne_of_live hr.live).2 0 (by decide)
    have hp0 : pageAt k.mmu.heap 0 ≠ 0 := hp.1
    rw [hm] at h
    dsimp only at h
    rw [if_neg hp0] at h
    obtain ⟨hyes, hno⟩ := giveFrames_spec m (setSp (k.tasks k.current) (pageAt k.mmu.heap 0))
    rw [← hheap]
    by_cases hf : HasFrames m.heap
    · obtain ⟨code, stack, heap, h', hgive, hg⟩ := hyes hf
      rw [hgive] at h
      simp only [Bool.not_true, Bool.false_eq_true, if_false] at h
      refine Or.inr ⟨⟨hp, hf⟩, m.setHeap h', pageAt k.mmu.heap 0, code, stack, heap, ?_⟩
      split at h
      · cases h
      · next k₂ hload =>
        cases h
        exact ⟨k₂, hp0, hne, hcur, hcow, hg _ _ hgrew, hload, rfl⟩
      · cases h
    · obtain ⟨h', hgive, hg⟩ := hno hf
      rw [hgive] at h
      simp only [Bool.not_false, if_true, Option.some.injEq, Prod.mk.injEq, true_and] at h
      subst h
      refine Or.inl ⟨fun h => hf h.2, Function.update_self _ _ _, ?_, fun p b hpb => ?_⟩
      · rw [setTask_mmu, setMmu_mmu, spaceDestroy_current, setTask_tasks, Function.update_self]
        exact hcur.trans hr.active
      · rcases spaceDestroy_keep (m := m.setHeap h') hcow (hg _ _ hgrew) with hg' | he
        · exact hg'.keep p b hpb
        · rw [setTask_mmu, setMmu_mmu, he]
          exact (hg _ _ hgrew).keep p b hpb
  · rcases he : k.mmu.spaceCreate with ⟨fresh, m⟩
    obtain rfl : fresh = 0 := by
      have := spaceCreate_of_not_hasPages hp
      rwa [he] at this
    obtain ⟨n, hheap, hcur, -⟩ := spaceCreate_skip k.mmu
    rw [he] at h hheap hcur
    simp only [if_true, Option.some.injEq, Prod.mk.injEq, true_and] at h
    subst h
    refine Or.inl ⟨fun h => hp h.1, rfl, hcur.trans hr.active, fun p b hpb => ?_⟩
    rw [setMmu_mmu]
    rw [hheap]
    exact (Grew.refl k.mmu.heap).takePages_skip.keep p b hpb

/-- The condition under which a failure leaves the process as it was: it got no memory, or it had
frames of its own and the file was turned down without moving descriptor `1`. -/
def FailsClean (fs : Files) (k : Kernel H) (a : ExecArgs H) : Prop :=
  ¬(HasPages k.mmu.heap 7 ∧ HasFrames (takePages k.mmu.heap 7)) ∨
    (k.tasks k.current).ownsFrames = true ∧ (k.tasks k.current).codeBytes = kCodeBytes ∧
      ∃ s, refusal fs k.fds a.path a.argv = some s ∧ Silent fs k.fds s

/-- What `replace` does not put back after a failure of `load_into`. -/
theorem restoreImage_eq_iff {old : Task} {fresh code stack heap : ℕ}
    {F : Fin kMaxFd → Option OFile} :
    restoreImage (setFdTable (imaged old fresh code stack heap) F) old = old ↔
      old.ownsFrames = true ∧ old.codeBytes = kCodeBytes ∧ F = old.fd := by
  constructor
  · intro h
    exact ⟨(congrArg Task.ownsFrames h).symm, (congrArg Task.codeBytes h).symm, congrArg Task.fd h⟩
  · rintro ⟨ho, hc, rfl⟩
    cases old
    subst ho hc
    rfl

theorem undo_mmu_current (k : Kernel H) (old : Task) (fresh : ℕ) :
    (k.undo old fresh).mmu.current = k.mmu.current := by
  rw [undo, setTask_mmu, setMmu_mmu, spaceDestroy_current]
  rfl

/-- **All or nothing.** A `replace` that returns false has kept the process if and only if its
failure is a clean one. -/
theorem replace_kept_iff (hr : Running k) (h : replace fs k a = some (false, k')) :
    Kept k k' ↔ FailsClean fs k a := by
  rcases replace_false hr h with ⟨hmem, hk⟩ | ⟨hmem, m, fresh, code, stack, heap, k₂, h0, hne, hcur,
    hcow, hgrew, hload, rfl⟩
  · exact iff_of_true hk (Or.inl hmem)
  · set old := k.tasks k.current with hold
    set k₁ := (k.setMmu m).setTask k.current (imaged old fresh code stack heap) with hk₁
    have htask : k₁.tasks k₁.current = imaged old fresh code stack heap :=
      Function.update_self _ _ _
    have hfds : k₁.fds = k.fds := by
      rw [fds, htask]
      rfl
    rw [FailsClean, or_iff_right (not_not.mpr hmem)]
    cases hs : refusal fs k.fds a.path a.argv with
    | none =>
      -- the fresh space stays the active one
      refine iff_of_false (fun hk => hne ?_) (by simp)
      have hact := loadInto_late (by rw [htask]; exact h0) (by rw [hfds]; exact hs) hload
      rw [htask] at hact
      have hkept := hk.active
      rw [hk.task, undo_mmu_current] at hkept
      exact hact.symm.trans hkept
    | some s =>
      rw [loadInto_refused (by rw [hfds]; exact hs), hfds] at hload
      obtain rfl : k₁.setFds (said fs k.fds s) = k₂ := by simpa using hload
      have htask₂ : (k₁.setFds (said fs k.fds s)).tasks k.current
          = setFdTable (imaged old fresh code stack heap) (said fs k.fds s) := by
        rw [← htask]
        exact setFds_task _
      have hfinal : ((k₁.setFds (said fs k.fds s)).undo old fresh).tasks k.current
          = restoreImage (setFdTable (imaged old fresh code stack heap) (said fs k.fds s)) old := by
        rw [← htask₂]
        exact Function.update_self _ _ _
      constructor
      · intro hk
        obtain ⟨ho, hc, hF⟩ := restoreImage_eq_iff.mp (hfinal.symm.trans hk.task)
        exact ⟨ho, hc, s, rfl, said_eq_iff.mp hF⟩
      · rintro ⟨ho, hc, s', hs', hsilent⟩
        obtain rfl := Option.some.inj hs'
        have hback := hfinal.trans (restoreImage_eq_iff.mpr ⟨ho, hc, said_eq_iff.mpr hsilent⟩)
        refine ⟨hback, ?_, fun p b hpb => ?_⟩
        · rw [hback, undo_mmu_current]
          exact hcur.trans hr.active
        · have hmmu : ((k₁.setFds (said fs k.fds s)).undo old fresh).mmu
              = (((m.kframeFree code).kframeFree stack).kframeFree heap).spaceDestroy fresh := by
            rw [undo, setTask_mmu, setMmu_mmu, setFds_current, setTask_current,
              setMmu_current, htask₂]
            rfl
          have hg := hgrew.free.free.free
          rw [hmmu]
          rcases spaceDestroy_keep (m := ((m.kframeFree code).kframeFree stack).kframeFree heap)
            hcow hg with hg' | he
          · exact hg'.keep p b hpb
          · rw [he]
            exact hg.keep p b hpb

end

/-- A process in user mode whose descriptors are closed; `owns` is its `owns_frames`. -/
def execCaller (owns : Bool) : Kernel Bump where
  mmu := bare.spaceCreate.2.spaceSwitch 4096
  pipes _ := ⟨0, 0, none, none, false⟩
  tasks i := if i = 0 then
      { Task.zero with
        pid := 1, state := .running, sp := 4096, armed := true, codeBytes := kCodeBytes
        ownsFrames := owns }
    else .zero
  current := 0

/-- A file system without files. -/
def noFiles : Files where
  resolve _ := none
  read _ _ _ := (-1, [])
  write _ _ _ := (-1, 0)
  size _ := none
  resolve_pipe _ _ h := by cases h

def missing : ExecArgs Bump := ⟨text "/bin/nosuch", fun _ => [], [], []⟩

theorem running_execCaller (owns : Bool) : Running (execCaller owns) := by
  have hlive : (live bare.spaceCreate.2.heap 4096).isSome = true := by decide +kernel
  exact ⟨rfl, hlive⟩

theorem replace_missing (owns : Bool) : ∃ k', replace noFiles (execCaller owns) missing
    = some (false, k') ∧ (k'.tasks 0).ownsFrames = true := by
  have h : ((replace noFiles (execCaller owns) missing).map fun r =>
      (r.1, (r.2.tasks 0).ownsFrames)) = some (false, true) := by
    cases owns <;> decide +kernel
  obtain ⟨⟨b, k'⟩, hk, hb⟩ := Option.map_eq_some_iff.mp h
  obtain ⟨rfl, ho⟩ := Prod.mk.inj hb
  exact ⟨k', hk, ho⟩

theorem replace_kept_missing : ∃ k', replace noFiles (execCaller true) missing = some (false, k') ∧
    Kept (execCaller true) k' := by
  obtain ⟨k', hk, -⟩ := replace_missing true
  refine ⟨k', hk, (replace_kept_iff (running_execCaller true) hk).mpr
    (Or.inr ⟨rfl, rfl, _, rfl, ?_⟩)⟩
  intro e he
  cases he

/-- A child that shares the frames of its parent and fails to start a program counts as their owner
from then on. -/
theorem replace_missing_owns : Running (execCaller false) ∧
    ∃ k', replace noFiles (execCaller false) missing = some (false, k') ∧
      ¬Kept (execCaller false) k' := by
  obtain ⟨k', hk, ho⟩ := replace_missing false
  refine ⟨running_execCaller false, k', hk, fun h => ?_⟩
  have hf : (k'.tasks 0).ownsFrames = false := congrArg Task.ownsFrames h.task
  rw [ho] at hf
  cases hf

end Kernel

end Aurisys
