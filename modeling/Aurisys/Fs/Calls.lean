import Aurisys.Fs.Mkdir

/-!
# Calls, one after the other

On a volume that is in order, `write_file` that truncates or creates and `mkdir` do what they say
and nothing else, and after any calls, whether they succeed or give up, the volume is in order and
every path leads where it led. That is more than each call alone promises: one that gives up half
way leaves an inode or some blocks behind that are marked and that nothing leads to, and the next
one starts from there.

## Main definitions

* `Lists` — what a call has left as it was in the directories
* `Filed`, `Founded` — a path leads to a file with some data, or to a new directory
* `Call` — what can be called, with any arguments

## Main results

* `writeFile_filed`, `mkdir_founded`
* `run_onward`
-/

namespace Aurisys

open Bytes Fallible Path

namespace Fs

/-- Every directory lists what it did; only the parent of the path may list an entry more. -/
def Lists (s : Fs) (abs : Str) (e : Dirent) (u : Fs) : Prop :=
  ∀ k, DirOk s k → u.entries k = s.entries k ∨ (exec (lookupAbs (parentPath abs)) s).1 = some k ∧
    ∃ old new, s.entries k = some old ∧ u.entries k = some new ∧ new.Perm (e :: old)

/-- The path leads to the inode. -/
def Named (s : Fs) (base path : Str) (k : ℕ) : Prop :=
  ∃ abs, resolve path (some base) 256 = some abs ∧ (exec (lookupAbs abs) s).1 = some k

/-- The path leads to a file with the data. -/
structure Filed (s : Fs) (abs : Str) (data : Bytes) (len ino : ℕ) (u : Fs) : Prop where
  /-- All that was there is there. -/
  onward : Onward (· = ino) s u
  /-- The path leads to the file. -/
  found : (exec (lookupAbs abs) u).1 = some ino
  /-- It has the length, -/
  size : (exec (getstat ino) u).1.map Stat.size = some len
  /-- and the bytes. -/
  reads : ∀ n off, u.readBytes ino n off = (((List.range len).map data).drop off).take n
  /-- Its directory lists it. -/
  dirs : Lists s abs ⟨ino, lastName abs, 1⟩ u

/-- The path led nowhere. It leads to an empty directory, in the one that its parent leads to. -/
structure Founded (s : Fs) (abs : Str) (d k : ℕ) (u : Fs) : Prop where
  /-- All that was there is there. -/
  onward : Onward (fun _ => False) s u
  /-- The path led nowhere, -/
  missing : (exec (lookupAbs abs) s).1 = none
  /-- but its directory was there. -/
  parent : (exec (lookupAbs (parentPath abs)) s).1 = some d
  /-- Now it leads to the new one, -/
  found : (exec (lookupAbs abs) u).1 = some k
  /-- which is empty. -/
  lists : u.entries k = some [⟨k, [dot], 2⟩, ⟨d, [dot, dot], 2⟩]
  /-- Its directory lists it. -/
  dirs : Lists s abs ⟨k, lastName abs, 2⟩ u

variable {s t u : Fs} {P : ℕ → Prop} {d k ino len : ℕ} {name abs base path : Str}
  {data : Bytes} {e : Dirent}

/-- What a path leads to is what `lookup_abs` finds. -/
theorem exec_lookupAbs (hg : s.geo.Ok) (path : Str) :
    (exec (lookupAbs path) s).1 = s.descend (copied path s.stack) kRootIno :=
  fst_of_wp (wp_mono (wp_lookupAbs_still hg (.refl s) path) (fun _ _ h => h.2) fun _ h => h.2)

theorem Absolute.exec_lookupAbs (h : Absolute abs) (hg : s.geo.Ok) :
    (exec (lookupAbs abs) s).1 = s.descend (components abs) kRootIno := by
  rw [Fs.exec_lookupAbs hg, h.copied]

/-! ## What the directories list -/

namespace Lists

/-- Looking around does not matter. -/
theorem of_still (hs : Rooted s) (hst : Still s t) (h : Lists t abs e u) : Lists s abs e u := by
  intro k hd
  have hg := hs.valid.geo
  have hharm := hs.valid.unharmed hst.core
  have hv : Valid t := hs.valid.of_core hst.core
  have hk := hharm.kept k hd.live
  have hlive := hharm.live k hd.live
  have hstack : t.stack = s.stack := Fs.of_core Fs.stack (fun _ => rfl) hst.core
  have hdt := h k (hk.dirOk hs.valid hd hlive)
  rwa [hk.entries hs.valid hv hd hlive, exec_lookupAbs hv.geo, hst.descend hg, hstack,
    ← exec_lookupAbs hg] at hdt

theorem of_created (hs : Rooted s) {img : Bytes} (hc : Created s d e img u)
    (hpar : (exec (lookupAbs (parentPath abs)) s).1 = some d) : Lists s abs e u := by
  intro k hk
  by_cases hkd : k = d
  · subst hkd
    obtain ⟨l₁, l₂, hold, hnew⟩ := hc.entries
    refine .inr ⟨hpar, _, _, hk.entries hs.valid, hc.dirOk.entries hc.valid, ?_⟩
    rw [hold, hnew]
    exact List.perm_middle
  · exact .inl ((hc.kept k hkd hk.live).entries hs.valid hc.valid hk (hc.grows k hk.live))

theorem of_intact (hs : Rooted s) (hi : Intact s ino u) (hfile : IsFile (s.inodes ino)) :
    Lists s abs e u := by
  intro k hk
  have hne : k ≠ ino := fun he => hfile.not_isDir (he ▸ hk.dir)
  exact .inl ((hi.kept k hne hk.live).entries hs.valid hi.valid hk ((hi.live k).mpr hk.live))

end Lists

/-! ## The calls -/

theorem Intact.apart (h : Intact s ino u) (ht : Tame s u) : Apart s ino u :=
  ⟨h.geo, h.stack, h.live, h.valid, h.kept, ht⟩

theorem Replaces.onward (h : Replaces s ino data len u) (hs : Rooted s) (hl : s.Live ino)
    (hfile : IsFile (s.inodes ino)) : Onward (· = ino) s u :=
  hs.onward_apart (h.intact.apart h.tame) hl hfile h.stores.file.not_isDir

theorem MakesFile.onward (h : MakesFile s d name data len k u) (hs : Rooted s) (hd : DirOk s d)
    (hnew : s.child d name = none) : Onward P s u := by
  obtain ⟨img, hc⟩ := h.created
  have hlive : u.Live k := (hc.live k hc.isIno).mpr (.inr rfl)
  refine hs.onward_created hc hd (hs.created hc hd ?_ fun i hi hl _ => ?_) hnew
  · exact .inr (.inr (.inl ⟨hlive, h.stores.file.not_isDir⟩))
  · exact .inr ((h.tame i hi hl).imp_right .inl)

/-- The entries of an empty directory lead to it and to its parent. -/
theorem inUse_emptyDir (hk : InUse u k) (hd : InUse u d) (he : e ∈ emptyDir k d) :
    InUse u e.ino := by
  rcases List.mem_pair.mp he with rfl | rfl
  · exact hk
  · exact hd

theorem MakesDir.onward (h : MakesDir s d name k u) (hs : Rooted s) (hd : DirOk s d)
    (hnew : s.child d name = none) : Onward P s u := by
  obtain ⟨img, hc⟩ := h.created
  refine hs.onward_created hc hd (hs.created hc hd ?_ fun i hi hl hne => ?_) hnew
  · refine .inr (.inr (.inr ⟨h.empty.1, fun e he => ?_⟩))
    rw [h.empty.2] at he
    exact inUse_emptyDir h.empty.1.inUse hc.dirOk.inUse he
  · exact .inr (.inl (h.tame i hi hl hne))

/-- **A directory that nothing leads to** does no harm. -/
theorem Seeded.onward (h : Seeded s d k u) (hs : Rooted s) (hd : DirOk s d) : Onward P s u := by
  have hentries : ∀ e ∈ u.dirEntries d, InUse u e.ino := by
    intro e he
    rw [h.parent.2] at he
    obtain ⟨hi, hl⟩ := hs.linked d hd e he
    exact ⟨h.geo.symm ▸ hi, h.grows _ hl⟩
  have hroot : IsDir (u.inodes kRootIno) := by
    by_cases hr : kRootIno = d
    · rw [hr]
      exact h.parent.1.dir
    · exact (h.kept _ hr hs.root.1.2).image.sameMap.isDir.mpr hs.root.2
  have hu : Rooted u := by
    refine hs.step h.geo h.valid h.grows hroot fun i hi => ?_
    by_cases hid : i = d
    · subst hid
      exact .inr (.inr (.inr ⟨h.parent.1, hentries⟩))
    · by_cases hl : s.Live i
      · exact .inl ⟨hl, h.kept i hid hl⟩
      · by_cases hik : i = k
        · subst hik
          refine .inr (.inr (.inr ⟨h.empty.1, fun e he => ?_⟩))
          rw [h.empty.2] at he
          exact inUse_emptyDir h.empty.1.inUse h.parent.1.inUse he
        · exact .inr (.inl (h.tame i hi hl hik))
  refine hs.onward_dir hu hd h.parent.1 h.kept h.grows fun name c hc => ?_
  rw [hu.child_eq h.parent.1, h.parent.2, ← hs.child_eq hd, hc]

/-- `getstat` says whether an inode is a directory. -/
theorem wp_statDir_still (hg : s.geo.Ok) (h : Still s t) (hi : s.geo.IsIno d) :
    wp (statDir d) (fun _ u => Still s u ∧ IsDir (s.inodes d)) (fun u => Still s u) t := by
  have hgt : t.geo.Ok := h.geo.symm ▸ hg
  have hit : t.geo.IsIno d := h.geo.symm ▸ hi
  have hsame := loaded_ino hgt hit
  rw [core_inodes h.core] at hsame
  obtain ⟨hn, hb2⟩ := h.loaded hg d
  have hstill : Still s (t.loaded d) := .near hn hb2
  rw [statDir, wp_bind, getstat, wp_bind, wp_loadInode hgt]
  refine ⟨fun _ => ?_, fun hno => absurd hit hno⟩
  rw [wp_bind, wp_get, wp_pure, wp_guard]
  exact ⟨fun hdir => ⟨hstill, hsame.sameMap.isDir.mp hdir⟩, fun _ => hstill⟩

/-! ## `write_file` -/

theorem Filed.of_still (hs : Rooted s) (hst : Still s t) (h : Filed t abs data len ino u) :
    Filed s abs data len ino u :=
  ⟨(Onward.of_core hs hst.core).trans h.onward, h.found, h.size, h.reads, h.dirs.of_still hs hst⟩

/-- What is stored is what is read. -/
theorem Stores.size_eq (h : Stores u ino data len) (hu : Rooted u) (hi : InUse u ino) :
    (exec (getstat ino) u).1.map Stat.size = some len := by
  rw [exec_getstat hu.valid.geo hi.1, Option.map_some]
  exact congrArg some h.size

/-- **A file that has been created** is under its path. -/
theorem MakesFile.filed (h : MakesFile s d (lastName abs) data len k u)
    (hs : Rooted s) (hd : DirOk s d)
    (habs : Absolute abs) (hlast : lastName abs ≠ [])
    (hpar : s.descend (components (parentPath abs)) kRootIno = some d)
    (hnew : s.child d (lastName abs) = none) : Filed s abs data len k u := by
  have honward : Onward (· = k) s u := h.onward hs hd hnew
  have hu := honward.rooted
  obtain ⟨img, hc⟩ := h.created
  have hk : InUse u k := ⟨hc.geo.symm ▸ hc.isIno, (hc.live k hc.isIno).mpr (.inr rfl)⟩
  refine ⟨honward, ?_, h.stores.size_eq hu hk, h.stores.readBytes hu.valid.geo hk.1 (hu.flat hk),
    .of_created hs hc ?_⟩
  · rw [habs.exec_lookupAbs hu.valid.geo, habs.components_eq hlast, descend_append,
      honward.found _ _ hpar,
      Option.bind_some, descend, (hs.child_created hu hc hd hnew).1]
    rfl
  · rw [exec_lookupAbs hs.valid.geo, habs.copied_parent, hpar]

/-- **A file that has been written over** is under its path as before. -/
theorem Replaces.filed (h : Replaces s ino data len u) (hs : Rooted s) (hi : InUse s ino)
    (hfile : IsFile (s.inodes ino)) (habs : Absolute abs)
    (hlook : s.descend (components abs) kRootIno = some ino) : Filed s abs data len ino u := by
  have honward := h.onward hs hi.2 hfile
  have hu := honward.rooted
  have hk : InUse u ino := ⟨h.intact.geo.symm ▸ hi.1, (h.intact.live ino).mpr hi.2⟩
  refine ⟨honward, ?_, h.stores.size_eq hu hk, h.stores.readBytes hu.valid.geo hk.1 (hu.flat hk),
    ?_⟩
  · rw [habs.exec_lookupAbs hu.valid.geo, honward.found _ _ hlook]
  · exact .of_intact hs h.intact hfile

/-- Where the path leads nowhere, its last name is not in what its parent leads to. -/
theorem Absolute.child_none (h : Absolute abs) (hlast : lastName abs ≠ [])
    (hpar : s.descend (components (parentPath abs)) kRootIno = some d)
    (hlook : s.descend (components abs) kRootIno = none) : s.child d (lastName abs) = none := by
  rw [h.components_eq hlast, descend_append, hpar, Option.bind_some, descend] at hlook
  cases hc : s.child d (lastName abs) with
  | none => rfl
  | some c =>
    rw [hc] at hlook
    exact absurd hlook (by simp [descend])

/-- The path is created. -/
theorem Rooted.wp_createFile (h : Rooted s) (hst : Still s t) (habs : Absolute abs)
    (hlast : lastName abs ≠ [])
    (hpar : s.descend (components (parentPath abs)) kRootIno = some d)
    (hlook : s.descend (components abs) kRootIno = none) (hlen : len < 2 ^ 32) :
    wp (createFile d (lastName abs) data len)
      (fun _ u => ∃ k, Filed s abs data len k u ∧ Onward P s u)
        (fun u => Onward P s u) t := by
  have ht : Onward P s t := .of_core h hst.core
  have hg := h.valid.geo
  rw [← hst.descend hg] at hpar hlook
  have hinuse := ht.rooted.inUse_of_descend ht.rooted.root.1 hpar
  have hnew := habs.child_none hlast hpar hlook
  refine wp_mono (Fs.wp_createFile ht.rooted.valid hinuse.2 (ht.rooted.dirs d hinuse)
    (habs.direntName hlast) hlen
    ht.rooted.blank) ?_ ?_
  · rintro _ u ⟨hdir, k, hmk⟩
    have hd := ht.rooted.dirs d hinuse hdir
    exact ⟨k, (hmk.filed ht.rooted hd habs hlast hpar hnew).of_still h hst,
      ht.trans (hmk.onward ht.rooted hd hnew)⟩
  · rintro u (⟨hu, htame⟩ | ⟨hdir, k, hmk⟩)
    · exact ht.trans (ht.rooted.onward_unharmed hu htame)
    · exact ht.trans (hmk.onward ht.rooted (ht.rooted.dirs d hinuse hdir) hnew)

/-- **`write_file`**, whatever it is called with. -/
theorem Rooted.wp_writeFile (h : Rooted s) (habs : ∀ abs, resolve path (some base) 256 = some abs →
      Absolute abs)
    (hlen : len < 2 ^ 32) (flags : ℕ) :
    wp (writeFile (some base) path data len flags)
      (fun _ u => Onward (Named s base path) s u ∧ (flags &&& oAppend = 0 →
        ∃ abs ino, resolve path (some base) 256 = some abs ∧ Filed s abs data len ino u))
      (fun u => Onward (Named s base path) s u) s := by
  have hg := h.valid.geo
  have hquiet : ∀ {u}, Still s u → Onward (Named s base path) s u := fun hu => .of_core h hu.core
  rw [writeFile, wp_bind, wp_guard]
  refine ⟨fun _ => ?_, fun _ => .refl h⟩
  rw [wp_bind]
  refine wp_mono (wp_locate hg (.refl s) (some base) path) ?_ fun u hu => hquiet hu.1
  rintro ⟨abs, name, parent⟩ t ⟨ht, hres, hname, hlast, hpar⟩
  dsimp only at hres hname hlast hpar
  subst hname
  have ha := habs abs hres
  rw [ha.copied_parent] at hpar
  rw [wp_bind, wp_attempt]
  refine wp_mono (wp_lookupAbs_still hg ht abs) ?_ ?_
  · rintro ino u ⟨hu, hlook⟩
    rw [ha.copied] at hlook
    have hinuse := h.inUse_of_descend h.root.1 hlook
    have hnamed : ∀ k, k = ino → Named s base path k := by
      rintro _ rfl
      exact ⟨abs, hres, (ha.exec_lookupAbs hg).trans hlook⟩
    rw [wp_bind, wp_guard]
    refine ⟨fun hflags => ?_, fun _ => hquiet hu⟩
    have hgu : u.geo.Ok := hu.geo.symm ▸ hg
    have hiu : u.geo.IsIno ino := hu.geo.symm ▸ hinuse.1
    have hsame := loaded_ino hgu hiu
    rw [wp_bind, wp_loadInode hgu]
    refine ⟨fun _ => ?_, fun hn => absurd hiu hn⟩
    obtain ⟨hn, hb2⟩ := hu.loaded hg ino
    have hv : Still s (u.loaded ino) := .near hn hb2
    have honward := hquiet hv
    have hinodes : (u.loaded ino).inodes = s.inodes := core_inodes hv.core
    have hsame' : Same (u.loaded ino).ino ((u.loaded ino).inodes ino) := hsame
    have hinuse' : InUse (u.loaded ino) ino :=
      ⟨hv.geo.symm ▸ hinuse.1, (core_live hv.core).mpr hinuse.2⟩
    have hlook' : (u.loaded ino).descend (components abs) kRootIno = some ino := by
      rw [hv.descend hg, hlook]
    generalize u.loaded ino = v at hv honward hinodes hsame' hinuse' hlook'
    have hvr := honward.rooted
    rw [wp_bind, wp_get, wp_bind, wp_guard]
    refine ⟨fun hfile => ?_, fun _ => honward⟩
    have hfile' : IsFile (v.inodes ino) := hsame'.sameMap.isFile.mp hfile
    rw [wp_ite]
    refine ⟨fun _ => ?_, fun htrunc => ?_⟩
    · refine wp_mono (wp_truncateFile hvr.valid hinuse'.1 hinuse'.2 hsame' hfile'
        hlen hvr.blank) ?_ ?_
      · intro _ w hw
        have hfiled := hw.filed hvr hinuse' hfile' ha hlook'
        exact ⟨honward.trans (hfiled.onward.mono hnamed), fun _ => ⟨abs, ino, hres,
          hfiled.of_still h hv⟩⟩
      · rintro w (⟨hw, htame⟩ | hw)
        · exact honward.trans (hvr.onward_unharmed hw htame)
        · exact honward.trans ((hw.onward hvr hinuse'.2 hfile').mono hnamed)
    · -- Without `O_TRUNC`, what was there is appended to.
      have happend : flags &&& oAppend ≠ 0 := by
        rw [Nat.and_or_distrib_left, not_not.mp htrunc, Nat.zero_or] at hflags
        exact hflags
      exact wp_mono (Loaded.wp_appendFile ⟨hvr, hinuse', hfile', hsame'⟩)
        (fun _ w hw => ⟨honward.trans (hw.mono hnamed), fun hn => absurd hn happend⟩)
        fun w hw => honward.trans (hw.mono hnamed)
  · rintro u ⟨hu, hlook⟩
    rw [ha.copied] at hlook
    refine wp_mono (h.wp_createFile hu ha hlast hpar hlook hlen) ?_ fun w hw => hw
    rintro _ w ⟨k, hk, honward⟩
    exact ⟨honward, fun _ => ⟨abs, k, hres, hk⟩⟩

/-! ## `mkdir` -/

theorem Founded.of_still (hs : Rooted s) (hst : Still s t) (h : Founded t abs d k u) :
    Founded s abs d k u := by
  have hg := hs.valid.geo
  have hgt : t.geo.Ok := hst.geo.symm ▸ hg
  have hstack : t.stack = s.stack := Fs.of_core Fs.stack (fun _ => rfl) hst.core
  have hlook : ∀ path, (exec (lookupAbs path) t).1 = (exec (lookupAbs path) s).1 := fun path => by
    rw [exec_lookupAbs hgt, exec_lookupAbs hg, hst.descend hg, hstack]
  exact ⟨(Onward.of_core hs hst.core).trans h.onward, (hlook abs).symm.trans h.missing,
    (hlook (parentPath abs)).symm.trans h.parent, h.found, h.lists, h.dirs.of_still hs hst⟩

/-- **A directory that has been made** is under its path. -/
theorem MakesDir.founded (h : MakesDir s d (lastName abs) k u) (hs : Rooted s) (hd : DirOk s d)
    (habs : Absolute abs) (hlast : lastName abs ≠ [])
    (hpar : s.descend (components (parentPath abs)) kRootIno = some d)
    (hlook : s.descend (components abs) kRootIno = none) : Founded s abs d k u := by
  have hnew := habs.child_none hlast hpar hlook
  have honward : Onward (fun _ => False) s u := h.onward hs hd hnew
  have hu := honward.rooted
  obtain ⟨img, hc⟩ := h.created
  have hparent : (exec (lookupAbs (parentPath abs)) s).1 = some d := by
    rw [exec_lookupAbs hs.valid.geo, habs.copied_parent, hpar]
  refine ⟨honward, ?_, hparent, ?_, ?_, .of_created hs hc hparent⟩
  · rw [habs.exec_lookupAbs hs.valid.geo, hlook]
  · rw [habs.exec_lookupAbs hu.valid.geo, habs.components_eq hlast, descend_append,
      honward.found _ _ hpar,
      Option.bind_some, descend, (hs.child_created hu hc hd hnew).1]
    rfl
  · rw [h.empty.1.entries hu.valid, h.empty.2]
    rfl

/-- **`mkdir`**, whatever it is called with. -/
theorem Rooted.wp_mkdir (h : Rooted s) (habs : ∀ abs, resolve path (some base) 256 = some abs →
      Absolute abs) :
    wp (mkdir (some base) path)
      (fun _ u => ∃ abs d k, resolve path (some base) 256 = some abs ∧ Founded s abs d k u)
      (fun u => Onward (fun _ => False) s u) s := by
  have hg := h.valid.geo
  have hquiet : ∀ {u}, Still s u → Onward (fun _ => False) s u := fun hu => .of_core h hu.core
  rw [mkdir, wp_bind]
  refine wp_mono (wp_locate hg (.refl s) (some base) path) ?_ fun u hu => hquiet hu.1
  rintro ⟨abs, name, d⟩ t ⟨ht, hres, hname, hlast, hpar⟩
  dsimp only at hres hname hlast hpar
  subst hname
  have ha := habs abs hres
  rw [ha.copied_parent] at hpar
  have hinuse := h.inUse_of_descend h.root.1 hpar
  rw [wp_bind]
  refine wp_mono (wp_statDir_still hg ht hinuse.1) ?_ fun u hu => hquiet hu
  rintro _ u ⟨hu, hdir⟩
  have hd := h.dirs d hinuse hdir
  rw [wp_bind, wp_attempt]
  refine wp_mono (wp_lookupAbs_still hg hu abs) (fun _ v hv => hquiet hv.1) ?_
  rintro v ⟨hv, hlook⟩
  rw [ha.copied] at hlook
  have honward := hquiet hv
  have hvr := honward.rooted
  have hinuse' : InUse v d := ⟨hv.geo.symm ▸ hinuse.1, (core_live hv.core).mpr hinuse.2⟩
  have hdv := hvr.dirs d hinuse' (core_inodes hv.core ▸ hdir)
  rw [← hv.descend hg] at hpar hlook
  have hnew := ha.child_none hlast hpar hlook
  refine wp_mono (wp_createDir hvr.valid hdv (ha.direntName hlast) hvr.blank) ?_ ?_
  · rintro _ w ⟨k, hk⟩
    exact ⟨abs, d, k, hres, (hk.founded hvr hdv ha hlast hpar hlook).of_still h hv⟩
  · rintro w (⟨hw, htame⟩ | ⟨k, hk⟩ | ⟨k, hk⟩)
    · exact honward.trans (hvr.onward_unharmed hw htame)
    · exact honward.trans (hk.onward hvr hdv)
    · exact honward.trans (hk.onward hvr hdv hnew)

/-! ## Any calls -/

/-- The arguments of a call with a path: what is resolved is shorter than what `lookup_abs`
copies. -/
structure PathArgs (base path : Str) : Prop where
  /-- The working directory is an absolute path. -/
  head : base.head? = some slash
  /-- There is no null in either. -/
  no_zero : (0 : UInt8) ∉ path ++ base
  /-- What they resolve to is shorter than a copy. -/
  short : ∀ abs, resolve path (some base) 256 = some abs → abs.length < 255

theorem PathArgs.absolute (h : PathArgs base path) (habs : resolve path (some base) 256 =
      some abs) : Absolute abs :=
  absolute_of_resolve h.head h.no_zero habs (h.short abs habs)

/-- **`write_file` without `O_APPEND`**: when it succeeds, the path leads to a file that reads as
the data. Every other file reads as before, and the directories list what they did, but for the new
name in the parent. -/
theorem writeFile_filed (hs : Rooted s) (hp : PathArgs base path) (hlen : len < 2 ^ 32) {flags : ℕ}
    (hflags : flags &&& oAppend = 0)
    (hex : exec (writeFile (some base) path data len flags) s = (some ⟨⟩, u)) :
    ∃ abs ino, resolve path (some base) 256 = some abs ∧ Filed s abs data len ino u :=
  (wp_of_some (hs.wp_writeFile (fun _ => hp.absolute) hlen flags) hex).2 hflags

/-- **`mkdir`**: when it succeeds, the path led nowhere and now leads to a directory with `.` and
`..`. Every file reads as before, and the directories list what they did, but for the new name in
the parent. -/
theorem mkdir_founded (hs : Rooted s) (hp : PathArgs base path)
    (hex : exec (mkdir (some base) path) s = (some ⟨⟩, u)) :
    ∃ abs d k, resolve path (some base) 256 = some abs ∧ Founded s abs d k u :=
  wp_of_some (hs.wp_mkdir fun _ => hp.absolute) hex

/-- What can be called. -/
inductive Call
  | lookupAbs (path : Str)
  | listDir (dirIno : ℕ)
  | getstat (ino : ℕ)
  | read (ino len off : ℕ)
  | writeFile (base path : Str) (data : Bytes) (len flags : ℕ)
  | writeAt (ino : ℕ) (buf : Bytes) (off len : ℕ)
  | mkdir (base path : Str)

namespace Call

def act : Call → Act Unit
  | lookupAbs path => do let _ ← Fs.lookupAbs path; return
  | listDir d => do let _ ← Fs.listDir collect d []; return
  | getstat ino => do let _ ← Fs.getstat ino; return
  | read ino len off => do let _ ← Fs.read ino len off; return
  | writeFile base path data len flags => Fs.writeFile (some base) path data len flags
  | writeAt ino buf off len => Fs.writeAt ino buf off len
  | mkdir base path => Fs.mkdir (some base) path

/-- The volume afterwards, whether the call succeeds or not. -/
def after (c : Call) (s : Fs) : Fs := (exec c.act s).2

/-- Lengths are 32 bits, and the paths are proper. -/
def Proper : Call → Prop
  | writeFile base path _ len _ => PathArgs base path ∧ len < 2 ^ 32
  | mkdir base path => PathArgs base path
  | _ => True

/-- The file that a call may change. -/
def Writes (s : Fs) : Call → ℕ → Prop
  | writeFile base path _ _ _ => Named s base path
  | writeAt ino _ _ _ => (· = ino)
  | _ => fun _ => False

/-- A call that only reads. -/
theorem onward_of_reads (hs : Rooted s) {α : Type} {x : Act α} (hx : Reads x) :
    Onward P s (exec x s).2 :=
  .of_core hs (hx.exec_core s)

/-- **One call**, whether it succeeds or gives up. -/
theorem onward (hs : Rooted s) (c : Call) (hc : c.Proper) : Onward (c.Writes s) s (c.after s) := by
  have hstate : ∀ {x : Act Unit} {Q : Fs → Prop}, wp x (fun _ u => Q u) Q s → Q (exec x s).2 := by
    intro x Q h
    rw [wp] at h
    generalize exec x s = r at h
    rcases r with ⟨_ | _, u⟩ <;> exact h
  cases c with
  | lookupAbs path => exact onward_of_reads hs (.bind (reads_lookupAbs path) fun _ => .pure _)
  | listDir d => exact onward_of_reads hs (.bind (reads_listDir collect d []) fun _ => .pure _)
  | getstat ino => exact onward_of_reads hs (.bind (reads_getstat ino) fun _ => .pure _)
  | read ino len off => exact onward_of_reads hs (.bind (reads_read ino len off) fun _ => .pure _)
  | writeFile base path data len flags =>
    exact hstate (wp_mono (hs.wp_writeFile (fun _ => hc.1.absolute) hc.2 flags)
      (fun _ _ h => h.1) fun _ => id)
  | writeAt ino buf off len => exact hstate (wp_writeAt_onward hs)
  | mkdir base path =>
    refine hstate (wp_mono (hs.wp_mkdir fun _ => hc.absolute) ?_ fun _ => id)
    rintro _ u ⟨abs, d, k, -, h⟩
    exact h.onward

end Call

/-- One call after the other. -/
def run (calls : List Call) (s : Fs) : Fs := calls.foldl (fun s c => c.after s) s

/-- The files that the calls may change, as each of them finds the volume. -/
def written : List Call → Fs → ℕ → Prop
  | [], _, _ => False
  | c :: calls, s, k => c.Writes s k ∨ written calls (c.after s) k

/-- **Any calls, in any order**, whether they succeed or give up: the volume is in order, every path
that led somewhere leads there, and a file that no call was made on reads as before. -/
theorem run_onward (hs : Rooted s) (calls : List Call) (hc : ∀ c ∈ calls, c.Proper) :
    Onward (written calls s) s (run calls s) := by
  induction calls generalizing s with
  | nil => exact .refl hs
  | cons c calls ih =>
    have hfirst := Call.onward hs c (hc c (List.mem_cons_self ..))
    have hrest := ih hfirst.rooted fun c' h => hc c' (List.mem_cons_of_mem c h)
    exact (hfirst.mono fun _ => .inl).trans (hrest.mono fun _ => .inr)

/-- What is assumed of a volume elsewhere holds after any calls. -/
theorem Rooted.orderly (h : Rooted s) : Orderly s := by
  refine ⟨h.valid, fun names k hk => ?_⟩
  have hinuse := h.inUse_of_descend h.root.1 hk
  exact ⟨hinuse.1, hinuse.2, h.dirs k hinuse⟩

/-! ## On the small volume -/

theorem rooted_filed : Rooted filed := by
  have hone : ∀ d, InUse filed d → IsDir (filed.inodes d) → d = kRootIno := by
    have hall : ∀ d ≤ 16, IsDir (filed.inodes d) → d = kRootIno := by decide +kernel
    exact fun d hd => hall d hd.1.2
  refine ⟨valid_filed, fun k hk => ?_, by unfold InUse; decide +kernel, fun d hd hdir => ?_,
    fun d hd => ?_⟩
  · have hall : ∀ k ≤ 16, 0 < k → ¬filed.Live k → IsBlank (filed.inodes k) := by decide +kernel
    exact hall k hk.2 hk.1
  · rw [hone d hd hdir]
    exact dirOk_filed
  · rw [hone d hd.inUse hd.dir]
    unfold InUse
    decide +kernel

theorem pathArgs_of_resolve (hhead : base.head? = some slash) (hzero : (0 : UInt8) ∉ path ++ base)
    (h : resolve path (some base) 256 = some abs) (hlen : abs.length < 255) : PathArgs base path :=
  ⟨hhead, hzero, fun _ h' => Option.some.inj (h.symm.trans h') ▸ hlen⟩

/-- `/d` and then `/d/e` and so on. -/
theorem pathArgs_filed : PathArgs [slash] [100] ∧ PathArgs [slash, 100] [101] := by
  have hdir : resolve [100] (some [slash]) 256 = some [slash, 100] := by decide
  have hfile : resolve [101] (some [slash, 100]) 256 = some [slash, 100, slash, 101] := by decide
  exact ⟨pathArgs_of_resolve rfl (by decide) hdir (by decide),
    pathArgs_of_resolve rfl (by decide) hfile (by decide)⟩

theorem writeFile_filed_small : ∃ abs ino, resolve [100] (some [slash]) 256 = some abs ∧
    Filed filed abs (ofStr [97, 98]) 2 ino (exec (writeFile (some [slash]) [100] (ofStr [97,
      98]) 2 0) filed).2 :=
  writeFile_filed rooted_filed pathArgs_filed.1 (by decide) (by decide)
    (exec_eq (by decide +kernel))

theorem mkdir_founded_small : ∃ abs d k, resolve [100] (some [slash]) 256 = some abs ∧
    Founded filed abs d k (exec (mkdir (some [slash]) [100]) filed).2 :=
  mkdir_founded rooted_filed pathArgs_filed.1 (exec_eq (by decide +kernel))

/-- A directory is made, a file in it is written, and there is no room for what is appended. -/
theorem run_onward_small :
    let calls : List Call := [.mkdir [slash] [100], .writeFile [slash, 100] [101] (ofStr [97]) 1 0,
      .writeAt 14 (fun _ => 98) 0 100000]
    Onward (written calls filed) filed (run calls filed) :=
  run_onward rooted_filed _ <| by
    simp only [List.mem_cons, List.not_mem_nil, or_false, forall_eq_or_imp, forall_eq]
    exact ⟨pathArgs_filed.1, ⟨pathArgs_filed.2, by decide⟩, trivial⟩

end Fs

end Aurisys
