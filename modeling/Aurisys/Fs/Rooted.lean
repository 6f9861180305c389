import Aurisys.Fs.Replace
import Aurisys.Fs.Touch

/-!
# The directory tree

On a volume that is in order every directory in use is in order, the root is one, every entry leads
to an inode in use, and the inodes that are free are blank. This is what has to hold between the
calls, whether they succeed or give up: a call may leave an inode or blocks marked that nothing
leads to, but nothing in the tree.

Looking a path up then goes from directory to directory. A call that keeps the entries of the
directories, or adds one under a name that was not there, keeps everything that could be found.

## Main definitions

* `Rooted` — the volume is in order
* `Apart` — nothing beside an inode is touched
* `Onward` — the volume is still in order, and every path leads where it led
* `Safe` — what an inode may be like after a call
* `Absolute` — a path that `lookup_abs` gets right

## Main results

* `Rooted.step`
* `Rooted.descend_mono`
-/

namespace Aurisys

open Bytes Fallible Path

namespace Fs

/-- The inode is in use. -/
def InUse (s : Fs) (k : ℕ) : Prop := s.geo.IsIno k ∧ s.Live k

/-- The directories in use are in order, their entries lead to inodes in use, and there is a
root. -/
structure Rooted (s : Fs) : Prop where
  /-- Blocks have one owner. -/
  valid : Valid s
  /-- What is free is blank. -/
  blank : Blank s
  /-- There is a root. -/
  root : InUse s kRootIno ∧ IsDir (s.inodes kRootIno)
  /-- The directories are in order. -/
  dirs : ∀ d, InUse s d → IsDir (s.inodes d) → DirOk s d
  /-- Their entries lead to inodes in use. -/
  linked : ∀ d, DirOk s d → ∀ e ∈ s.dirEntries d, InUse s e.ino

/-- The same inodes are in use, and all but `ino` are as they were. -/
structure Apart (s : Fs) (ino : ℕ) (u : Fs) : Prop where
  geo : u.geo = s.geo
  stack : u.stack = s.stack
  /-- No inode has come into use or gone out of it. -/
  live : ∀ k, u.Live k ↔ s.Live k
  valid : Valid u
  /-- The other inodes are as they were. -/
  kept : ∀ k, k ≠ ino → s.Live k → Kept s u k
  /-- What was free is blank, or it has been taken. -/
  tame : Tame s u

/-- The volume is still in order, every path that led somewhere leads there, and of what was in use
only inodes of `P` may read otherwise. -/
structure Onward (P : ℕ → Prop) (s u : Fs) : Prop where
  /-- The volume is in order. -/
  rooted : Rooted u
  /-- A path leads where it led. -/
  found : ∀ names c, s.descend names kRootIno = some c → u.descend names kRootIno = some c
  /-- An inode outside `P` reads as before. -/
  files : ∀ k, InUse s k → ¬P k → InUse u k ∧ ∀ len off, u.readBytes k len off =
    s.readBytes k len off

/-- An inode is as it was, or it is blank, or it is in use and no directory, or a directory in
order. -/
def Safe (s u : Fs) (k : ℕ) : Prop :=
  (s.Live k ∧ Kept s u k) ∨ IsBlank (u.inodes k) ∨ (u.Live k ∧ ¬IsDir (u.inodes k)) ∨
    (DirOk u k ∧ ∀ e ∈ u.dirEntries k, InUse u e.ino)

variable {s t u : Fs} {P Q : ℕ → Prop} {d k len ino : ℕ} {name : Str} {data : Bytes}
  {names : List Str} {abs : Str}

theorem DirOk.inUse (h : DirOk s d) : InUse s d := ⟨h.isIno, h.live⟩

/-- A directory does not read. -/
theorem DirOk.readBytes (h : DirOk s d) (hv : Valid s) (n off : ℕ) : s.readBytes d n off = [] := by
  rw [readBytes_eq hv.geo h.isIno (h.flat hv), if_neg fun hf => hf.not_isDir h.dir]

/-! ## Steps -/

namespace Rooted

variable (h : Rooted s)

include h

theorem flat (hk : InUse s k) : Flat s.geo (s.inodes k) := table_of_live hk.2 ▸ h.valid.flat k

/-- What is kept reads as before. -/
theorem readBytes (hk : InUse s k) (hkept : Kept s u k) (hl : u.Live k) :
    InUse u k ∧ ∀ len off, u.readBytes k len off = s.readBytes k len off :=
  ⟨⟨hkept.geo.symm ▸ hk.1, hl⟩, hkept.readBytes h.valid.geo hk.1 (h.flat hk)⟩

/-- **What a call may do.** -/
theorem step (hgeo : u.geo = s.geo) (hv : Valid u) (hgrows : ∀ k, s.Live k → u.Live k)
    (hroot : IsDir (u.inodes kRootIno)) (hsafe : ∀ k, s.geo.IsIno k → Safe s u k) : Rooted u := by
  have hcase : ∀ d, InUse u d → IsDir (u.inodes d) → DirOk u d ∧
      ∀ e ∈ u.dirEntries d, InUse u e.ino := by
    intro d hd hdir
    rcases hsafe d (hgeo ▸ hd.1) with ⟨hl, hk⟩ | hb | ⟨-, hn⟩ | hok
    · have hold := h.dirs d ⟨hgeo ▸ hd.1, hl⟩ (hk.image.sameMap.isDir.mp hdir)
      refine ⟨hk.dirOk h.valid hold hd.2, fun e he => ?_⟩
      rw [hk.dirEntries h.valid hold] at he
      obtain ⟨hi, hle⟩ := h.linked d hold e he
      exact ⟨hgeo ▸ hi, hgrows _ hle⟩
    · exact absurd hdir hb.not_isDir
    · exact absurd hdir hn
    · exact hok
  refine ⟨hv, fun k hi hl => ?_, ⟨⟨hgeo ▸ h.root.1.1, hgrows _ h.root.1.2⟩, hroot⟩,
    fun d hd hdir => (hcase d hd hdir).1,
    fun d hd => (hcase d hd.inUse hd.dir).2⟩
  rcases hsafe k (hgeo ▸ hi) with ⟨hls, -⟩ | hb | ⟨hlu, -⟩ | ⟨hok, -⟩
  · exact absurd (hgrows k hls) hl
  · exact hb
  · exact absurd hlu hl
  · exact absurd hok.live hl

/-- A call that has not changed what was in use. -/
theorem unharmed (hu : Unharmed s u) (ht : Tame s u) : Rooted u := by
  have hroot := hu.kept _ h.root.1.2
  refine h.step hu.geo hu.valid hu.live (hroot.image.sameMap.isDir.mpr h.root.2) fun k hi => ?_
  by_cases hl : s.Live k
  · exact .inl ⟨hl, hu.kept k hl⟩
  · exact .inr ((ht k hi hl).imp_right .inl)

/-- A call that has changed a file. -/
theorem apart (hu : Apart s ino u) (hl : s.Live ino) (hne : ino ≠ kRootIno)
    (hdir : ¬IsDir (u.inodes ino)) :
    Rooted u := by
  have hroot := hu.kept _ hne.symm h.root.1.2
  refine h.step hu.geo hu.valid (fun k => (hu.live k).mpr) (hroot.image.sameMap.isDir.mpr h.root.2)
    fun k hi => ?_
  by_cases hk : k = ino
  · subst hk
    exact .inr (.inr (.inl ⟨(hu.live k).mpr hl, hdir⟩))
  · by_cases hlk : s.Live k
    · exact .inl ⟨hlk, hu.kept k hk hlk⟩
    · exact .inr ((hu.tame k hi hlk).imp_right .inl)

/-- A file is not the root. -/
theorem ne_root (hfile : IsFile (s.inodes ino)) : ino ≠ kRootIno := by
  rintro rfl
  exact hfile.not_isDir h.root.2

/-- A call that has created something. -/
theorem created {e : Dirent} {img : Bytes} (hu : Created s d e img u) (hd : DirOk s d)
    (hsafe : Safe s u e.ino) (ht : ∀ k, s.geo.IsIno k → ¬s.Live k → k ≠ e.ino → Safe s u k) :
    Rooted u := by
  have hne : e.ino ≠ d := fun he => hu.free (he ▸ hd.live)
  have hdok : DirOk u d ∧ ∀ e' ∈ u.dirEntries d, InUse u e'.ino := by
    refine ⟨hu.dirOk, fun e' he' => ?_⟩
    obtain ⟨l₁, l₂, hold, hnew⟩ := hu.entries
    have hcase : e' = e ∨ e' ∈ s.dirEntries d := by
      rw [hnew] at he'
      rw [hold]
      simp only [List.mem_append, List.mem_cons] at he' ⊢
      tauto
    rcases hcase with rfl | hmem
    · exact ⟨hu.geo.symm ▸ hu.isIno, (hu.live _ hu.isIno).mpr (.inr rfl)⟩
    · obtain ⟨hi, hl⟩ := h.linked d hd e' hmem
      exact ⟨hu.geo.symm ▸ hi, hu.grows _ hl⟩
  have hroot : IsDir (u.inodes kRootIno) := by
    by_cases hk : kRootIno = d
    · rw [hk]
      exact hu.dirOk.dir
    · exact (hu.kept _ hk h.root.1.2).image.sameMap.isDir.mpr h.root.2
  refine h.step hu.geo hu.valid hu.grows hroot fun k hi => ?_
  by_cases hkd : k = d
  · exact .inr (.inr (.inr (hkd ▸ hdok)))
  · by_cases hl : s.Live k
    · exact .inl ⟨hl, hu.kept k hkd hl⟩
    · by_cases hke : k = e.ino
      · exact hke ▸ hsafe
      · exact ht k hi hl hke

/-! ## Looking up -/

/-- **One name is looked up** in a directory. -/
theorem child_eq (hd : DirOk s d) (name : Str) :
    s.child d name = ((s.dirEntries d).find? fun e => decide (e.name = name)).map Dirent.ino := by
  have hlook := hd.lookup h.valid name
  rw [exec_lookupFrom h.valid.geo, descend] at hlook
  rw [← hlook]
  cases s.child d name <;> rfl

/-- Where something is found, it is a directory that it is in. -/
theorem dirOk_of_child (hd : InUse s d) {c : ℕ} (hc : s.child d name = some c) : DirOk s d :=
  h.dirs d hd (isDir_of_child h.valid.geo hc).2

theorem inUse_of_child (hd : InUse s d) {c : ℕ} (hc : s.child d name = some c) : InUse s c := by
  have hok := h.dirOk_of_child hd hc
  rw [h.child_eq hok] at hc
  obtain ⟨e, he, rfl⟩ := Option.map_eq_some_iff.mp hc
  exact h.linked d hok e (List.mem_of_find?_eq_some he)

/-- **What is found is in use.** -/
theorem inUse_of_descend (hd : InUse s d) {c : ℕ} (hc : s.descend names d = some c) :
    InUse s c := by
  induction names generalizing d with
  | nil =>
    rw [descend] at hc
    exact Option.some.inj hc ▸ hd
  | cons name names ih =>
    obtain ⟨x, hx, hc⟩ := Option.bind_eq_some_iff.mp hc
    exact ih (h.inUse_of_child hd hx) hc

/-- **Everything that could be found can be found**, if every name still leads where it did. -/
theorem descend_mono (hchild : ∀ d name c, DirOk s d → s.child d name = some c →
      u.child d name = some c)
    (hd : InUse s d) {c : ℕ} (hc : s.descend names d = some c) : u.descend names d = some c := by
  induction names generalizing d with
  | nil => exact hc
  | cons name names ih =>
    obtain ⟨x, hx, hc⟩ := Option.bind_eq_some_iff.mp hc
    rw [descend, hchild d name x (h.dirOk_of_child hd hx) hx]
    exact ih (h.inUse_of_child hd hx) hc

/-- A directory with the entries it had. -/
theorem child_kept (hu : Rooted u) (hk : Kept s u d) (hl : u.Live d) (hd : DirOk s d) (name : Str) :
    u.child d name = s.child d name := by
  rw [h.child_eq hd, hu.child_eq (hk.dirOk h.valid hd hl), hk.dirEntries h.valid hd]

/-- A directory with an entry more, under a new name. -/
theorem child_created (hu : Rooted u) {e : Dirent} {img : Bytes} (hc : Created s d e img u)
    (hd : DirOk s d)
    (hnew : s.child d e.name = none) : u.child d e.name = some e.ino ∧
      ∀ name c, s.child d name = some c → u.child d name = some c := by
  obtain ⟨l₁, l₂, hold, hents⟩ := hc.entries
  rw [h.child_eq hd, Option.map_eq_none_iff, hold, List.find?_append, Option.or_eq_none_iff] at hnew
  refine ⟨?_, fun name c hs => ?_⟩
  · rw [hu.child_eq hc.dirOk, hents, List.find?_append, hnew.1, List.find?_cons, decide_eq_true rfl]
    rfl
  · rw [hu.child_eq hc.dirOk, hents, ← hs, h.child_eq hd, hold, List.find?_append,
      List.find?_append]
    have hname : e.name ≠ name := by
      rintro rfl
      rw [h.child_eq hd, hold, List.find?_append, hnew.1, hnew.2] at hs
      exact absurd hs (by simp)
    rw [List.find?_cons, decide_eq_false hname]

/-! ## What can be found afterwards -/

/-- A call after which every name leads where it led. -/
theorem onward (hu : Rooted u) (hchild : ∀ d name c, DirOk s d → s.child d name = some c →
      u.child d name = some c)
    (hfiles : ∀ k, InUse s k → ¬P k → InUse u k ∧ ∀ len off, u.readBytes k len off =
      s.readBytes k len off) :
    Onward P s u :=
  ⟨hu, fun _ _ hc => h.descend_mono hchild h.root.1 hc, hfiles⟩

theorem onward_unharmed (hu : Unharmed s u) (ht : Tame s u) : Onward P s u := by
  have hrooted := h.unharmed hu ht
  refine h.onward hrooted (fun d name c hd hc => ?_) fun k hk _ => h.readBytes hk
    (hu.kept k hk.2) (hu.live k hk.2)
  rw [h.child_kept hrooted (hu.kept d hd.live) (hu.live d hd.live) hd, hc]

theorem onward_apart (hu : Apart s ino u) (hl : s.Live ino) (hfile : IsFile (s.inodes ino))
    (hdir : ¬IsDir (u.inodes ino)) : Onward (· = ino) s u := by
  have hrooted := h.apart hu hl (h.ne_root hfile) hdir
  refine h.onward hrooted (fun d name c hd hc => ?_) fun k hk hne =>
    h.readBytes hk (hu.kept k hne hk.2) ((hu.live k).mpr hk.2)
  have hne : d ≠ ino := fun he => hfile.not_isDir (he ▸ hd.dir)
  rw [h.child_kept hrooted (hu.kept d hne hd.live) ((hu.live d).mpr hd.live) hd, hc]

/-- A call that has changed a directory, and has left the others and the files alone. -/
theorem onward_dir (hu : Rooted u) (hd : DirOk s d) (hd' : DirOk u d)
    (hkept : ∀ k, k ≠ d → s.Live k → Kept s u k) (hgrows : ∀ k, s.Live k → u.Live k)
    (hold : ∀ name c, s.child d name = some c → u.child d name = some c) : Onward P s u := by
  refine h.onward hu (fun k name c hk hs => ?_) fun k hk _ => ?_
  · by_cases hkd : k = d
    · subst hkd
      exact hold name c hs
    · rw [h.child_kept hu (hkept k hkd hk.live) (hgrows k hk.live) hk, hs]
  · by_cases hkd : k = d
    · subst hkd
      refine ⟨hd'.inUse, fun len off => ?_⟩
      rw [hd'.readBytes hu.valid, hd.readBytes h.valid]
    · exact h.readBytes hk (hkept k hkd hk.2) (hgrows k hk.2)

/-- A call that has created something under a new name. -/
theorem onward_created {e : Dirent} {img : Bytes} (hc : Created s d e img u)
    (hd : DirOk s d) (hu : Rooted u)
    (hnew : s.child d e.name = none) : Onward P s u :=
  h.onward_dir hu hd hc.dirOk hc.kept hc.grows (h.child_created hu hc hd hnew).2

end Rooted

namespace Onward

theorem refl (h : Rooted s) : Onward P s s := ⟨h, fun _ _ => id, fun _ hk _ => ⟨hk, fun _ _ => rfl⟩⟩

theorem trans (h : Onward P s t) (h' : Onward P t u) : Onward P s u := by
  refine ⟨h'.rooted, fun names c hc => h'.found names c (h.found names c hc), fun k hk hne => ?_⟩
  obtain ⟨ht, hread⟩ := h.files k hk hne
  obtain ⟨hu, hread'⟩ := h'.files k ht hne
  exact ⟨hu, fun len off => (hread' len off).trans (hread len off)⟩

theorem mono (h : Onward P s u) (hPQ : ∀ k, P k → Q k) : Onward Q s u :=
  ⟨h.rooted, h.found, fun k hk hne => h.files k hk fun hP => hne (hPQ k hP)⟩

/-- The buffers do not matter. -/
theorem of_core (h : Rooted s) (hcore : u.core = s.core) : Onward P s u :=
  h.onward_unharmed (h.valid.unharmed hcore) (.of_inodes h.blank (core_inodes hcore))

end Onward

/-! ## Paths -/

/-- A path from the root, shorter than what `lookup_abs` copies. -/
structure Absolute (abs : Str) : Prop where
  slash : Path.slash ∈ abs
  short : abs.length < 255
  no_zero : (0 : UInt8) ∉ abs

namespace Absolute

variable (h : Absolute abs)

include h

theorem copied (stack : Stack) : Fs.copied abs stack = components abs := copied_of_lt h.short stack

theorem copied_parent (stack : Stack) :
    Fs.copied (parentPath abs) stack = components (parentPath abs) :=
  copied_parentPath h.slash h.short.le stack

/-- **What a path leads to** is under its last name in what its parent leads to. -/
theorem components_eq (hlast : lastName abs ≠ []) :
    components abs = components (parentPath abs) ++ [lastName abs] :=
  components_eq_parent h.slash hlast

theorem direntName (hlast : lastName abs ≠ []) : DirentName (lastName abs) :=
  direntName_lastName h.slash h.short.le h.no_zero hlast

end Absolute

/-- **What `resolve` gives** is such a path, if it is short. -/
theorem absolute_of_resolve {base path : Str} (hbase : base.head? = some slash)
    (hzero : (0 : UInt8) ∉ path ++ base)
    (habs : resolve path (some base) 256 = some abs) (hshort : abs.length < 255) :
    Absolute abs where
  slash := slash_mem_resolve hbase habs
  short := hshort
  no_zero h := by
    rcases mem_resolve habs h with h | h | h
    · exact hzero (List.mem_append_left _ h)
    · exact hzero (List.mem_append_right _ h)
    · exact absurd h (by decide)

end Fs

end Aurisys
