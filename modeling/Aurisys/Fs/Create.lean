import Aurisys.Fs.AddEntry

/-!
# A file that is created

`write_file` on a path that leads nowhere takes an inode, stores the image of the new file, and only
then enters the name into the parent and settles the counts. When the last of these gives up, the
entry is there all the same; when one of the others does, an inode is marked that no directory has,
and nothing that was there before has changed.

## Main definitions

* `Made` — an inode that was free has an image
* `CanCreate` — there is an inode, and room for the name
* `Created` — the directory has an entry for a new inode

## Main results

* `Draft.made`
* `wp_createFile_nil`
-/

namespace Aurisys

open Bytes Fallible

namespace Fs

/-- An inode that was not in use has the image. The inodes in use are as they were. -/
structure Made (s : Fs) (k : ℕ) (img : Bytes) (t : Fs) : Prop where
  /-- The number is that of an inode. -/
  isIno : s.geo.IsIno k
  /-- It was not in use, -/
  free : ¬s.Live k
  geo : t.geo = s.geo
  stack : t.stack = s.stack
  /-- it is the only one that has come into use, -/
  live : ∀ i, s.geo.IsIno i → (t.Live i ↔ s.Live i ∨ i = k)
  /-- and none has gone out of it. -/
  grows : ∀ i, s.Live i → t.Live i
  /-- The descriptor is as it was. -/
  desc : t.disk s.geo.descBlock = s.disk s.geo.descBlock
  valid : Valid t
  /-- What was in use is as it was. -/
  kept : ∀ i, s.Live i → Kept s t i
  /-- The inode has the image. -/
  image : Same (t.inodes k) img

/-- There is an inode, and the directory has room for the name. -/
def CanCreate (s : Fs) (d : ℕ) (name : Str) : Prop :=
  IsDir (s.inodes d) ∧ s.nextInode ≠ none ∧ s.HasRoom d name

instance (s : Fs) (d : ℕ) (name : Str) : Decidable (s.CanCreate d name) :=
  inferInstanceAs (Decidable (_ ∧ _ ∧ _))

/-- The directory has an entry more, for an inode that was not in use and has the image now. The
other inodes in use are as they were. -/
structure Created (s : Fs) (d : ℕ) (e : Dirent) (img : Bytes) (u : Fs) : Prop where
  /-- The number is that of an inode. -/
  isIno : s.geo.IsIno e.ino
  /-- It was not in use, -/
  free : ¬s.Live e.ino
  geo : u.geo = s.geo
  stack : u.stack = s.stack
  /-- it is the only one that has come into use, -/
  live : ∀ i, s.geo.IsIno i → (u.Live i ↔ s.Live i ∨ i = e.ino)
  /-- and none has gone out of it. -/
  grows : ∀ i, s.Live i → u.Live i
  valid : Valid u
  /-- The other inodes are as they were. -/
  kept : ∀ i, i ≠ d → s.Live i → Kept s u i
  /-- The directory is in order. -/
  dirOk : DirOk u d
  /-- It has one entry more. -/
  entries : ∃ l₁ l₂, s.dirEntries d = l₁ ++ l₂ ∧ u.dirEntries d = l₁ ++ e :: l₂
  /-- The inode has the image. -/
  image : Same (u.inodes e.ino) img

variable {s t u v : Fs} {d i k ino : ℕ} {name : Str} {e : Dirent} {img data : Bytes}

/-! ## A new inode -/

section InodeTaken

variable (hg : s.geo.Ok) (hnext : s.nextInode = some i)

include hg hnext

/-- Only the inode bitmap changes. -/
theorem inodeTaken_of_ne {b : ℕ} (hb : b ≠ s.geo.ibb) : (s.inodeTaken i).disk b = s.disk b := by
  have hle := hg.inodes.2
  have hi := (nextInode_spec hg hnext).1.2
  rw [inodeTaken_disk (by omega), Function.update_of_ne hb]

theorem inodes_inodeTaken : (s.inodeTaken i).inodes = s.inodes :=
  inodes_congr rfl fun _ hi' => inodeTaken_of_ne hg hnext (hg.slotBlock_ne hi' Geometry.Ok.ibb_mem)

theorem live_inodeTaken (k : ℕ) : (s.inodeTaken i).Live k ↔ s.Live k ∨ k - 1 = i := by
  have hle := hg.inodes.2
  have hi := (nextInode_spec hg hnext).1.2
  rw [Live, inodeTaken_disk (by omega)]
  change (Function.update s.disk s.geo.ibb _ s.geo.ibb).bit (k - 1) = true ↔ _
  rw [Function.update_self, ← setBits_one, bit_setBits, Bool.or_eq_true, decide_eq_true_eq,
    Live, or_comm]
  refine or_congr_right ?_
  omega

end InodeTaken

/-- **The image that has been made up is stored** in the inode that has been taken. -/
theorem Draft.made {r : ℤ} (h : Draft (s.inodeTaken i) s.table 0 Nothing r t) (hv : Valid s)
    (hnext : s.nextInode = some i) (hstack : t.stack = s.stack)
    (hibb : t.disk s.geo.ibb = (s.inodeTaken i).disk s.geo.ibb) :
    Made s (i + 1) t.ino (t.stored (i + 1)) := by
  have hg := hv.geo
  obtain ⟨hi, hfree⟩ := nextInode_spec hg hnext
  have hgeo : t.geo = s.geo := h.tally.geo
  have hgt : t.geo.Ok := hgeo.symm ▸ hg
  have hit : t.geo.IsIno (i + 1) := hgeo.symm ▸ hi
  have hzero : s.table 0 = fun _ => 0 := by rw [table, inodes_zero, ite_self]
  have hlive : ∀ k, (t.stored (i + 1)).Live k ↔ s.Live k ∨ k - 1 = i := by
    intro k
    rw [live_stored hgt hit, ← live_inodeTaken hg hnext, Live, Live, hgeo, hibb]
    exact Iff.rfl
  have hinodes : ∀ k, Same ((t.stored (i + 1)).inodes k) (Function.update s.inodes
      (i + 1) t.ino k) := by
    intro k
    have := h.inodes_stored hit k
    rwa [inodes_inodeTaken hg hnext] at this
  have himg : Same ((t.stored (i + 1)).inodes (i + 1)) t.ino := by
    have := hinodes (i + 1)
    rwa [Function.update_self] at this
  refine ⟨hi, hfree, hgeo, hstack, fun k hk => ?_, fun k hl => (hlive k).mpr (.inl hl),
    ?_, ?_, fun k hl => ?_,
    himg⟩
  · rw [hlive]
    have := hk.1
    exact or_congr_right (by omega)
  · have hdesc := stored_single hgt hit Geometry.Ok.desc_mem
    rw [hgeo] at hdesc
    rw [hdesc]
    exact h.tally.desc.trans (inodeTaken_of_ne hg hnext hg.desc_ne_ibb)
  · refine ((h.replaced hit hzero).forget).congr fun k => ?_
    by_cases hk : k = i + 1
    · subst hk
      rw [Function.update_self, table_of_live ((hlive _).mpr (.inr (Nat.add_sub_cancel i 1)))]
      exact himg.sameMap
    · rw [Function.update_of_ne hk]
      by_cases hki : s.geo.IsIno k
      · have hiff : (t.stored (i + 1)).Live k ↔ s.Live k := by
          rw [hlive]
          have := hki.1
          exact or_iff_left (by omega)
        rw [table, table]
        by_cases hl : s.Live k
        · rw [if_pos hl, if_pos (hiff.mpr hl)]
          have := hinodes k
          rw [Function.update_of_ne hk] at this
          exact this.sameMap
        · rw [if_neg hl, if_neg fun hn => hl (hiff.mp hn)]
          exact .refl _
      · have hki' : ¬(t.stored (i + 1)).geo.IsIno k := by
          rw [stored_geo, hgeo]
          exact hki
        rw [table_of_not hki, table_of_not hki']
        exact .refl _
  · have hk : k ≠ i + 1 := fun hk => hfree (hk ▸ hl)
    refine ⟨hgeo, ?_, fun x b hc => ?_⟩
    · have := hinodes k
      rwa [Function.update_of_ne hk] at this
    · rw [← table_of_live hl] at hc
      have hmeta := hv.not_meta hc
      have hused : (s.inodeTaken i).Used b := by
        have hbbb : (s.inodeTaken i).disk s.geo.bbb = s.disk s.geo.bbb :=
          inodeTaken_of_ne hg hnext hg.bbb_ne_ibb
        exact (iff_of_eq (congrArg (fun d : Bytes => d.bit b = true) hbbb)).mpr
          (hv.own.own_used (k, x) b hc)
      have hdata := h.data b hused hmeta fun x' => by
        rw [hzero]
        exact not_covers_zero x' b
      have hslot : b ≠ t.geo.slotBlock (i + 1) := by
        rintro rfl
        exact hmeta (hgeo ▸ hgt.slotBlock_meta hit)
      rw [stored_disk t (i + 1) hslot, hdata]
      exact inodeTaken_of_ne hg hnext (ne_of_not_meta hmeta Geometry.Ok.ibb_mem).symm

/-! ## The entry -/

/-- **The new inode has got a name.** -/
theorem Made.added (hm : Made s k img t) (hv : Valid s) (hd : DirOk s d) (ha : Added t d e u)
    (he : e.ino = k) : Created s d e img u := by
  subst he
  have hne : e.ino ≠ d := fun hed => hm.free (hed ▸ hd.live)
  obtain ⟨l₁, l₂, hold, hnew⟩ := ha.entries
  refine ⟨hm.isIno, hm.free, ha.geo.trans hm.geo, ha.stack.trans hm.stack,
    fun i hi => (ha.live i).trans (hm.live i hi),
    fun i hl => (ha.live i).mpr (hm.grows i hl), ha.valid,
    fun i hi hl => ?_, ha.dirOk, ⟨l₁, l₂, ?_, hnew⟩, ?_⟩
  · exact (hm.kept i hl).trans (ha.kept i hi (hm.grows i hl)) (table_of_live hl ▸ hv.flat i)
  · rw [← (hm.kept d hd.live).dirEntries hv hd, hold]
  · exact (ha.kept e.ino hne ((hm.live e.ino hm.isIno).mpr (.inr rfl))).image.trans hm.image

/-- Settling the counts changes no inode. -/
theorem Settled.kept (h : Settled t u) (hv : Valid t) (hl : t.Live i) : Kept t u i := by
  refine ⟨h.geo, by rw [h.inodes hv.geo]; exact .refl _, fun x b hc => h.disk_of_not_meta ?_⟩
  rw [← table_of_live hl] at hc
  exact hv.not_meta hc

theorem Settled.valid (h : Settled t u) (hv : Valid t) : Valid u := by
  have htable : u.table = t.table := by
    funext k
    simp only [table, h.inodes hv.geo, h.live hv.geo]
  rw [Valid, htable]
  exact h.held hv

theorem Unharmed.trans (h : Unharmed s t) (hv : Valid s) (h' : Unharmed t u) : Unharmed s u :=
  ⟨h'.geo.trans h.geo, h'.stack.trans h.stack, fun k hl => h'.live k (h.live k hl), h'.valid,
    fun k hl => (h.kept k hl).trans (h'.kept k (h.live k hl)) (table_of_live hl ▸ hv.flat k)⟩

theorem Settled.unharmed (h : Settled t u) (hv : Valid t) : Unharmed t u :=
  ⟨h.geo, h.stack, fun _ hl => (h.live hv.geo).mpr hl, h.valid hv, fun _ hl => h.kept hv hl⟩

/-- The file stays created as long as no inode in use changes and none is taken. -/
theorem Created.unharmed (h : Created s d e img u) (hv : Valid s) (hu : Unharmed u v)
    (hlive : ∀ k, v.Live k ↔ u.Live k) : Created s d e img v := by
  have hk := hu.kept d h.dirOk.live
  have hnew : u.Live e.ino := (h.live e.ino h.isIno).mpr (.inr rfl)
  obtain ⟨l₁, l₂, hold, hents⟩ := h.entries
  refine ⟨h.isIno, h.free, hu.geo.trans h.geo, hu.stack.trans h.stack,
    fun i hi => (hlive i).trans (h.live i hi),
    fun i hl => hu.live i (h.grows i hl), hu.valid, fun i hi hl => ?_,
    hk.dirOk h.valid h.dirOk (hu.live d h.dirOk.live), ⟨l₁, l₂, hold, ?_⟩,
    (hu.kept e.ino hnew).image.trans h.image⟩
  · exact (h.kept i hi hl).trans (hu.kept i (h.grows i hl)) (table_of_live hl ▸ hv.flat i)
  · rw [hk.dirEntries h.valid h.dirOk, hents]

theorem Created.settled (h : Created s d e img u) (hv : Valid s) (hu : Settled u v) :
    Created s d e img v :=
  h.unharmed hv (hu.unharmed h.valid) fun _ => hu.live h.valid.geo

/-! ## The calls -/

theorem Made.unharmed (hm : Made s k img t) : Unharmed s t :=
  ⟨hm.geo, hm.stack, hm.grows, hm.valid, hm.kept⟩

end Fs

end Aurisys
