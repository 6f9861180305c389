import Aurisys.Fs.Lookup

/-!
# The working directories

`fs::chdir` resolves a path against the working directory and makes sure that it leads to a
directory. The path it has checked may have 255 bytes, but what a process keeps of it is an array of
128, and what does not fit is cut off. Then the process is somewhere else, or nowhere, and resolves
its paths against that.

As long as every path that is stored fits, each process stays in a directory that exists.

## Main definitions

* `chdir` — `fs::chdir`
* `Procs`, `Procs.chdir` — the working directories of all processes, and `task::chdir`
* `Short` — what is going to be stored fits
* `Reach` — the states after some calls

## Main results

* `cwd_reach`
-/

namespace Aurisys

open Bytes Fallible Path

namespace Fs

/-- `fs::chdir`: what goes to `out`. -/
def chdir (base path : Str) (outsz : ℕ) : Act Str := do
  guard (2 ≤ outsz)
  let abs ← Fallible.ofOption (resolve path (some base) 256)
  let ino ← lookupAbs abs
  statDir ino
  return abs.take (outsz - 1)

/-- The path leads to a directory. -/
def Directory (s : Fs) (abs : Str) : Prop :=
  ∃ d, s.descend (components abs) kRootIno = some d ∧ s.geo.IsIno d ∧ IsDir (s.inodes d)

variable {s t : Fs} {γ : Type} {cb : Dirent → γ → Bool × γ} {base path abs : Str} {d outsz : ℕ}

/-! ## What is listed stays -/

theorem Still.listed (h : Still s t) (hg : s.geo.Ok) (ctx : γ) :
    t.listed cb d ctx = s.listed cb d ctx := by
  have hs := fst_of_wp (wp_mono (wp_listDir_still hg h ctx : wp (listDir cb d ctx) _ _ t)
    (fun _ _ h => h.2) fun _ h => h.2)
  have ht := fst_of_wp (wp_mono (wp_listDir_still (h.geo ▸ hg) (.refl t) ctx :
    wp (listDir cb d ctx) _ _ t) (fun _ _ h => h.2) fun _ h => h.2)
  rw [← ht, hs]

theorem Still.child (h : Still s t) (hg : s.geo.Ok) (d : ℕ) (name : Str) :
    t.child d name = s.child d name := by
  rw [Fs.child, Fs.child, childEntry, childEntry, h.listed hg]

theorem Still.descend (h : Still s t) (hg : s.geo.Ok) (names : List Str) (d : ℕ) :
    t.descend names d = s.descend names d := by
  induction names generalizing d with
  | nil => rfl
  | cons name names ih =>
    rw [Fs.descend, Fs.descend, h.child hg]
    cases s.child d name with
    | none => rw [Option.bind_none, Option.bind_none]
    | some c => exact ih c

theorem Still.directory (h : Still s t) (hg : s.geo.Ok) (abs : Str) :
    Directory t abs ↔ Directory s abs := by
  simp only [Directory, h.descend hg, h.geo, core_inodes h.core]

theorem descend_append (s : Fs) (ns ms : List Str) (d : ℕ) :
    s.descend (ns ++ ms) d = (s.descend ns d).bind (s.descend ms) := by
  induction ns generalizing d with
  | nil => rfl
  | cons n ns ih =>
    rw [List.cons_append, Fs.descend, Fs.descend, Option.bind_assoc]
    cases s.child d n with
    | none => rw [Option.bind_none, Option.bind_none]
    | some c => exact ih c

/-- Only a directory has something in it. -/
theorem isDir_of_child (hg : s.geo.Ok) {name : Str} {c : ℕ} (h : s.child d name = some c) :
    s.geo.IsIno d ∧ IsDir (s.inodes d) := by
  rw [Fs.child, childEntry, Fs.listed] at h
  split at h
  · next hd => exact ⟨hd.1, (loaded_ino hg hd.1).sameMap.isDir.mp hd.2⟩
  · exact absurd h (by simp)

/-! ## One call -/

theorem Still.trans {u : Fs} (h : Still s t) (h' : Still t u) : Still s u :=
  ⟨h.quiet.trans h'.quiet, fun a ha => (h'.b2 a (h.geo ▸ ha)).trans (h.b2 a ha)⟩

/-- **What `fs::chdir` stores** is cut off, and it leads to a directory before that. -/
theorem wp_chdir (hg : s.geo.Ok) :
    wp (chdir base path outsz)
      (fun out u => Still s u ∧ ∃ abs, resolve path (some base) 256 = some abs ∧
        Directory s abs ∧ out = abs.take (outsz - 1)) (fun u => Still s u) s := by
  rw [chdir, wp_bind, wp_guard]
  refine ⟨fun _ => ?_, fun _ => .refl s⟩
  rw [wp_bind, wp_ofOption]
  refine ⟨fun abs habs => ?_, fun _ => .refl s⟩
  rw [wp_bind, lookupAbs, wp_bind, wp_get]
  refine wp_mono (wp_lookupFrom_still hg (.refl s) _ _) ?_ fun _ h => h.1
  rintro ino u ⟨hu, hino⟩
  have hgu : u.geo.Ok := hu.geo ▸ hg
  rw [wp_bind, statDir, wp_bind]
  have hstat : wp (getstat ino) (fun st v => Still u v ∧ u.geo.IsIno ino ∧
      st = statOf ino (u.inodes ino)) (fun v => Still u v) u := by
    obtain ⟨hn, hb2⟩ := (Still.refl u).loaded hgu ino
    rw [getstat, wp_bind, wp_loadInode hgu]
    exact ⟨fun hi => ⟨.near hn hb2, hi, (loaded_ino hgu hi).statOf ino⟩, fun _ => .refl u⟩
  refine wp_mono hstat ?_ fun _ h => hu.trans h
  rintro st v ⟨hv, hi, rfl⟩
  rw [wp_guard]
  refine ⟨fun hdir => ?_, fun _ => hu.trans hv⟩
  rw [wp_pure]
  refine ⟨hu.trans hv, abs, habs, ?_, rfl⟩
  have hdir : IsDir (s.inodes ino) := core_inodes hu.core ▸ hdir
  have hi : s.geo.IsIno ino := hu.geo ▸ hi
  rw [copied] at hino
  have htake : abs.take 255 = abs := by
    have := length_resolve habs
    exact List.take_of_length_le (by omega)
  rw [htake] at hino
  split at hino
  · -- what is behind the path was looked up in what the path leads to
    rw [descend_append] at hino
    obtain ⟨d, hd, hrest⟩ := Option.bind_eq_some_iff.mp hino
    cases hstack : s.stack.components with
    | nil =>
      rw [hstack] at hrest
      obtain rfl := Option.some.inj hrest
      exact ⟨d, hd, hi, hdir⟩
    | cons name names =>
      rw [hstack, descend] at hrest
      obtain ⟨c, hc, -⟩ := Option.bind_eq_some_iff.mp hrest
      exact ⟨d, hd, isDir_of_child hg hc⟩
  · exact ⟨ino, hino, hi, hdir⟩

/-- `fs::chdir` goes to any directory whose path leaves room in the copy for its zero. -/
theorem exec_chdir (hg : s.geo.Ok) (hsz : 2 ≤ outsz)
    (habs : resolve path (some base) 256 = some abs)
    (hshort : abs.length < 255) (hd : Directory s abs) :
    (exec (chdir base path outsz) s).1 = some (abs.take (outsz - 1)) := by
  obtain ⟨d, hdesc, hi, hdir⟩ := hd
  have hcopied : copied abs s.stack = components abs := by
    rw [copied, List.take_of_length_le hshort.le]
    exact if_neg fun h => hshort.ne h.1
  refine fst_of_wp ?_
  rw [chdir, wp_bind, wp_guard]
  refine ⟨fun _ => ?_, fun hno => absurd hsz hno⟩
  rw [wp_bind, wp_ofOption]
  refine ⟨fun abs' habs' => ?_, fun hnone => absurd (hnone.symm.trans habs)
    (Option.some_ne_none abs).symm⟩
  obtain rfl := Option.some.inj (habs'.symm.trans habs)
  rw [wp_bind, lookupAbs, wp_bind, wp_get, hcopied]
  refine wp_mono (wp_lookupFrom_still hg (.refl s) _ _) ?_ fun u hu =>
    absurd (hu.2.symm.trans hdesc) (Option.some_ne_none d).symm
  rintro ino u ⟨hu, hino⟩
  obtain rfl := Option.some.inj (hino.symm.trans hdesc)
  have hgu : u.geo.Ok := hu.geo ▸ hg
  have hiu : u.geo.IsIno ino := hu.geo.symm ▸ hi
  have hstat : wp (getstat ino) (fun st _ => st = statOf ino (u.inodes ino))
      (fun _ => False) u := by
    rw [getstat, wp_bind, wp_loadInode hgu]
    exact ⟨fun _ => (loaded_ino hgu hiu).statOf ino, fun hno => hno hiu⟩
  rw [wp_bind, statDir, wp_bind]
  refine wp_mono hstat ?_ fun _ hno => hno.elim
  rintro st v rfl
  rw [wp_guard, core_inodes hu.core]
  exact ⟨fun _ => rfl, fun hno => absurd hdir hno⟩

/-! ## All processes -/

/-- The volume, and the working directory of each process. -/
structure Procs where
  fs : Fs
  cwd : ℕ → Str

namespace Procs

/-- `task::chdir` of process `t`: what it returns, and the state afterwards. -/
def chdir (w : Procs) (t : ℕ) (path : Str) : Bool × Procs :=
  match exec (Fs.chdir (w.cwd t) path 128) w.fs with
  | (some out, fs) => (true, ⟨fs, Function.update w.cwd t out⟩)
  | (none, fs) => (false, ⟨fs, w.cwd⟩)

/-- A new process is where its parent is. -/
def inherit (w : Procs) (parent child : ℕ) : Procs :=
  ⟨w.fs, Function.update w.cwd child (w.cwd parent)⟩

/-- Where the path leads to a directory, what is going to be stored has room with its zero. -/
def Short (w : Procs) (t : ℕ) (path : Str) : Prop :=
  ∀ abs, resolve path (some (w.cwd t)) 256 = some abs → Directory w.fs abs → abs.length ≤ 127

/-- The working directory of a process is in normal form, and a directory. -/
def Sane (w : Procs) (t : ℕ) : Prop :=
  (∃ cs, (∀ d ∈ cs, IsName d) ∧ w.cwd t = render cs) ∧ Directory w.fs (w.cwd t)

/-- The states after some calls, all of which meet the condition. -/
inductive Reach (w₀ : Procs) : Procs → Prop
  | start : Reach w₀ w₀
  | chdir {w : Procs} (h : Reach w₀ w) (t : ℕ) (path : Str) (hshort : w.Short t path) :
      Reach w₀ (w.chdir t path).2
  | inherit {w : Procs} (h : Reach w₀ w) (parent child : ℕ) : Reach w₀ (w.inherit parent child)

variable {w w₀ : Procs} {t : ℕ}

/-- **What one call does.** -/
theorem chdir_cases (hg : w.fs.geo.Ok) (t : ℕ) (path : Str) :
    Still w.fs (w.chdir t path).2.fs ∧
      (((w.chdir t path).1 = false ∧ (w.chdir t path).2.cwd = w.cwd) ∨
        ∃ abs, resolve path (some (w.cwd t)) 256 = some abs ∧ Directory w.fs abs ∧
          (w.chdir t path).1 = true ∧
          (w.chdir t path).2.cwd = Function.update w.cwd t (abs.take 127)) := by
  have hspec : wp (Fs.chdir (w.cwd t) path 128) _ _ w.fs := wp_chdir hg
  rw [chdir]
  rw [wp] at hspec
  generalize exec (Fs.chdir (w.cwd t) path 128) w.fs = r at hspec
  rcases r with ⟨_ | out, u⟩
  · exact ⟨hspec, .inl ⟨rfl, rfl⟩⟩
  · obtain ⟨hstill, abs, habs, hdir, rfl⟩ := hspec
    exact ⟨hstill, .inr ⟨abs, habs, hdir, rfl, rfl⟩⟩

/-- A process is in a directory, and the path of that has room with its zero. -/
structure Settled (w : Procs) (t : ℕ) : Prop where
  sane : w.Sane t
  fits : (w.cwd t).length ≤ 127

/-- The path resolved against a normal one is normal. -/
theorem normal_resolve {abs : Str} (h : ∃ cs, (∀ d ∈ cs, IsName d) ∧ base = render cs)
    (hlen : base.length ≤ 255) (habs : resolve path (some base) 256 = some abs) :
    ∃ cs, (∀ d ∈ cs, IsName d) ∧ abs = render cs := by
  obtain ⟨cs, hcs, rfl⟩ := h
  obtain ⟨-, -, rfl⟩ := ((resolve_normal hcs hlen path 256).1 abs).mp habs
  exact ⟨_, isName_walk (isName_start hcs) fun c hc => mem_components hc, rfl⟩

/-- **A call that meets the condition** stores the path that it has resolved. -/
theorem Settled.chdir (hg : w.fs.geo.Ok) (h : ∀ t, w.Settled t) {t : ℕ} {path : Str}
    (hshort : w.Short t path) :
    (∀ k, (w.chdir t path).2.Settled k) ∧ ((w.chdir t path).1 = true →
      resolve path (some (w.cwd t)) 256 = some ((w.chdir t path).2.cwd t)) := by
  obtain ⟨hstill, ⟨hfalse, hcwd⟩ | ⟨abs, habs, hdir, -, hcwd⟩⟩ := chdir_cases hg t path
  · refine ⟨fun k => ⟨⟨?_, ?_⟩, ?_⟩, fun htrue => ?_⟩
    · rw [hcwd]
      exact (h k).sane.1
    · rw [hcwd, hstill.directory hg]
      exact (h k).sane.2
    · rw [hcwd]
      exact (h k).fits
    · rw [hfalse] at htrue
      exact absurd htrue Bool.false_ne_true
  · have hlen := hshort abs habs hdir
    rw [List.take_of_length_le hlen] at hcwd
    have hself : (w.chdir t path).2.cwd t = abs := by rw [hcwd, Function.update_self]
    refine ⟨fun k => ?_, fun _ => by rw [hself, habs]⟩
    by_cases hk : k = t
    · subst hk
      have hfits := (h k).fits
      refine ⟨⟨?_, ?_⟩, ?_⟩
      · rw [hself]
        exact normal_resolve (h k).sane.1 (by omega) habs
      · rw [hself, hstill.directory hg]
        exact hdir
      · rw [hself]
        exact hlen
    · have hother : (w.chdir t path).2.cwd k = w.cwd k := by rw [hcwd, Function.update_of_ne hk]
      refine ⟨⟨?_, ?_⟩, ?_⟩
      · rw [hother]
        exact (h k).sane.1
      · rw [hother, hstill.directory hg]
        exact (h k).sane.2
      · rw [hother]
        exact (h k).fits

theorem Settled.inherit (h : ∀ t, w.Settled t) (parent child k : ℕ) :
    (w.inherit parent child).Settled k := by
  by_cases hk : k = child
  · have hcwd : (w.inherit parent child).cwd k = w.cwd parent := by
      rw [hk]
      exact Function.update_self ..
    exact ⟨⟨hcwd ▸ (h parent).sane.1, hcwd ▸ (h parent).sane.2⟩, hcwd ▸ (h parent).fits⟩
  · have hcwd : (w.inherit parent child).cwd k = w.cwd k := Function.update_of_ne hk _ _
    exact ⟨⟨hcwd ▸ (h k).sane.1, hcwd ▸ (h k).sane.2⟩, hcwd ▸ (h k).fits⟩

/-- The root is a directory. -/
theorem directory_root (hi : w.fs.geo.IsIno kRootIno) (hroot : IsDir (w.fs.inodes kRootIno)) :
    Directory w.fs [slash] := ⟨kRootIno, rfl, hi, hroot⟩

/-- **Where the processes are.** They begin in the root. After any calls whose paths fit, each is in
a directory, under its normal form, and one more such call that succeeds leaves what it has
resolved. -/
theorem cwd_reach (hg : w₀.fs.geo.Ok) (hi : w₀.fs.geo.IsIno kRootIno)
    (hroot : IsDir (w₀.fs.inodes kRootIno)) (hstart : ∀ t, w₀.cwd t = [slash]) (h : Reach w₀ w) :
    (∀ t, w.Sane t) ∧ ∀ t path, w.Short t path → (w.chdir t path).1 = true →
      resolve path (some (w.cwd t)) 256 = some ((w.chdir t path).2.cwd t) := by
  have hreach : w.fs.geo = w₀.fs.geo ∧ ∀ t, w.Settled t := by
    induction h with
    | start =>
      refine ⟨rfl, fun t => ⟨⟨?_, ?_⟩, ?_⟩⟩
      · rw [hstart]
        exact ⟨[], fun d hd => absurd hd List.not_mem_nil, rfl⟩
      · rw [hstart]
        exact directory_root hi hroot
      · rw [hstart]
        decide
    | chdir h t path hshort ih =>
      have hg' := ih.1.symm ▸ hg
      exact ⟨(chdir_cases hg' t path).1.geo.trans ih.1, (Settled.chdir hg' ih.2 hshort).1⟩
    | inherit h parent child ih => exact ⟨ih.1, Settled.inherit ih.2 parent child⟩
  refine ⟨fun t => (hreach.2 t).sane, fun t path hshort htrue => ?_⟩
  exact (Settled.chdir (hreach.1.symm ▸ hg) hreach.2 hshort).2 htrue

/-! ## A path of 201 bytes -/

/-- The small volume with a directory in the root whose name has 200 bytes. -/
def deepDisk (b : ℕ) : Bytes :=
  if b = 6 then memcpy (fun _ => 0) 384 (freshDir 1024 8) 0 128
  else if b = 7 then putDirent
    (w16 (freshDirBlock (fun _ => 0) 1024 kRootIno kRootIno) 16 12) 24 12 1000
    (List.replicate 200 97) 2
  else if b = 8 then freshDirBlock (fun _ => 0) 1024 12 kRootIno
  else filedDisk b

/-- Every process is in the root. -/
def start : Procs := ⟨{ filed with disk := deepDisk }, fun _ => [slash]⟩

/-- A process goes to the root, where it is. -/
theorem cwd_reach_start : (start.chdir 1 [slash]).2.Sane 1 :=
  have hi : start.fs.geo.IsIno kRootIno := by decide
  have hroot : IsDir (start.fs.inodes kRootIno) := by decide +kernel
  (cwd_reach smallGeometry_ok hi hroot (fun _ => rfl) (.chdir .start 1 [slash] fun abs habs _ => by
    have hself : resolve [slash] (some [slash]) 256 = some [slash] := by decide
    rw [← Option.some.inj (hself.symm.trans habs)]
    decide)).1 1

theorem components_as (n : ℕ) : components (slash :: List.replicate (n + 1) 97) =
    [List.replicate (n + 1) 97] := by
  have hrender : slash :: List.replicate (n + 1) 97 = render [List.replicate (n + 1) 97] := by
    simp [render, body]
  rw [hrender]
  exact components_render fun d hd => (plain_as n d hd).2

/-- What the names in the root lead to. -/
theorem start_child (name : Str) : start.fs.child kRootIno name = (callAll (findName name)
    (emptyDir kRootIno kRootIno ++ [⟨12, List.replicate 200 97, 2⟩]) 0
    none).2.2.map Dirent.ino := by
  have hmapped : start.fs.blockOf (start.fs.loaded kRootIno).ino 0 = some 7 := by decide +kernel
  have hlisted : dirents (memcpy start.fs.b2 0 (start.fs.disk 7) 0 1024) 1024 1024 0 =
      emptyDir kRootIno kRootIno ++ [⟨12, List.replicate 200 97, 2⟩] :=
    dirents_put (by decide) (by decide) (by decide) (by decide) (direntName_as (n := 199)
      (by decide)) (by decide)
      (by rw [List.length_replicate]; decide) fun a ha => by
        rw [memcpy_zero_of_lt ha, Nat.zero_add]
        rfl
  exact child_of_dirents (by decide +kernel) (by decide +kernel) hmapped (by decide) hlisted

theorem start_directory : Directory start.fs (slash :: List.replicate 200 97) := by
  refine ⟨12, ?_, by decide, by decide +kernel⟩
  rw [components_as 199, descend, start_child]
  decide +kernel

/-- The call succeeds, and what is stored is not what was resolved. -/
theorem cut_at_127 : (∀ t, start.Sane t) ∧
    (start.chdir 1 (slash :: List.replicate 200 97)).1 = true ∧
    resolve (slash :: List.replicate 200 97) (some (start.cwd 1)) 256 ≠
      some ((start.chdir 1 (slash :: List.replicate 200 97)).2.cwd 1) ∧
    ¬(start.chdir 1 (slash :: List.replicate 200 97)).2.Sane 1 := by
  have hi : start.fs.geo.IsIno kRootIno := by decide
  have hroot : IsDir (start.fs.inodes kRootIno) := by decide +kernel
  have habs : resolve (slash :: List.replicate 200 97) (some (start.cwd 1)) 256 =
      some (slash :: List.replicate 200 97) := by decide +kernel
  have hcall : start.chdir 1 (slash :: List.replicate 200 97) = (true,
      ⟨(exec (Fs.chdir (start.cwd 1) (slash :: List.replicate 200 97) 128) start.fs).2,
        Function.update start.cwd 1 (slash :: List.replicate 126 97)⟩) := by
    have htake : (slash :: List.replicate 200 97).take (128 - 1) = slash :: List.replicate 126
      97 := by decide +kernel
    have hexec :=
      exec_chdir smallGeometry_ok (by decide : 2 ≤ 128) habs (by decide +kernel) start_directory
    rw [htake] at hexec
    rw [chdir]
    generalize exec (Fs.chdir (start.cwd 1) (slash :: List.replicate 200 97) 128)
      start.fs = r at hexec
    obtain ⟨out, fs⟩ := r
    obtain rfl : out = some (slash :: List.replicate 126 97) := hexec
    rfl
  have hstored : (start.chdir 1 (slash :: List.replicate 200 97)).2.cwd 1 =
      slash :: List.replicate 126 97 := by
    rw [hcall]
    rfl
  have hlost : start.fs.descend (components (slash :: List.replicate 126 97)) kRootIno = none := by
    rw [components_as 125, descend, start_child]
    decide +kernel
  refine ⟨fun t => ⟨⟨[], fun d hd => absurd hd List.not_mem_nil, rfl⟩, directory_root hi hroot⟩,
    by rw [hcall],
    ?_, fun h => ?_⟩
  · rw [hstored]
    decide +kernel
  · obtain ⟨-, d, hd, -⟩ := h
    have hstill := (chdir_cases (w := start) smallGeometry_ok 1 (slash :: List.replicate 200 97)).1
    rw [hstored, hstill.descend smallGeometry_ok, hlost] at hd
    exact absurd hd.symm (Option.some_ne_none d)

end Procs

end Fs

end Aurisys
