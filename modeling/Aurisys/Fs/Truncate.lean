import Aurisys.Fs.Chdir
import Aurisys.Fs.Gap

/-!
# Storing an image over another

`write_file` with `O_TRUNC` makes up an image in `g_ino`, stores it over the one the file has, and
only then gives the blocks of the old one back. The image that is being made up is kept at the
number 0 of the table, which is no inode, and changes places with the old one when it is stored.

A file that is truncated to nothing takes no block, so nothing can be refused any more.

## Main definitions

* `Replaced` — an inode has the image that was in `g_ino`, and nothing else has changed

## Main results

* `wp_freeExtents`, `wp_replaceImage`
* `wp_truncateFile_nil`, `wp_writeFile_truncate`
-/

namespace Aurisys

open Bytes Fallible Path

namespace Fs

variable {s t u : Fs} {T : ℕ → Bytes} {X : ℕ → Prop} {img : Bytes} {ino first n k : ℕ}
  {l : List (ℕ × ℕ)}

/-! ## Giving blocks back -/

/-- Bits of the block bitmap have been cleared, and nothing else on the disk has changed. -/
structure Cleared (s u : Fs) : Prop where
  geo : u.geo = s.geo
  stack : u.stack = s.stack
  /-- Only the bitmap has changed. -/
  disk : ∀ b, b ≠ s.geo.bbb → u.disk b = s.disk b

namespace Cleared

theorem refl (s : Fs) : Cleared s s := ⟨rfl, rfl, fun _ _ => rfl⟩

theorem trans (h : Cleared s t) (h' : Cleared t u) : Cleared s u :=
  ⟨h'.geo.trans h.geo, h'.stack.trans h.stack,
    fun b hb => (h'.disk b (h.geo.symm ▸ hb)).trans (h.disk b hb)⟩

theorem given (hle : first + n ≤ 8 * s.geo.bs) : Cleared s (s.given first n) :=
  ⟨rfl, rfl, fun b hb => by rw [given_disk hle, Function.update_of_ne hb]⟩

end Cleared

/-- The runs are spare, and no two have a block in common. -/
structure Spares (g : Geometry) (X : ℕ → Prop) (l : List (ℕ × ℕ)) : Prop where
  bounds : ∀ e ∈ l, 0 < e.2 ∧ e.1 + e.2 ≤ g.blocks
  spare : ∀ e ∈ l, ∀ b, Run e.1 e.2 b → X b
  apart : l.Pairwise fun e e' => ∀ b, Run e.1 e.2 b → ¬Run e'.1 e'.2 b

/-- When the first run has been given back, the others are still spare. -/
theorem Spares.tail {e : ℕ × ℕ} (h : Spares s.geo X (e :: l)) :
    Spares s.geo (fun b => X b ∧ ¬Run e.1 e.2 b) l := by
  obtain ⟨hapart, htail⟩ := List.pairwise_cons.mp h.apart
  exact ⟨fun e' he => h.bounds e' (List.mem_cons_of_mem _ he),
    fun e' he b hb => ⟨h.spare e' (List.mem_cons_of_mem _ he) b hb,
      fun hb' => hapart e' he b hb' hb⟩, htail⟩

/-- **The blocks of the old extents** are given back one run after the other. -/
theorem wp_freeExtents (h : Held s T X) (hl : Spares s.geo X l) :
    wp (freeExtents l) (fun _ u => Cleared s u ∧ Held u T Nothing) (fun _ => False) s := by
  induction l generalizing s X with
  | nil => exact ⟨.refl s, h.forget⟩
  | cons e l ih =>
    obtain ⟨hpos, hle⟩ := hl.bounds e (List.mem_cons_self ..)
    rw [freeExtents, wp_bind]
    refine wp_freeBlocksAt h.geo hpos hle ?_
    have hgiven := h.given hle (hl.spare e (List.mem_cons_self ..))
    rw [wp_bind]
    refine wp_mono (ih hgiven hl.tail) (fun freed u hu => ?_) fun _ => id
    exact ⟨(Cleared.given (h.le_bits hle)).trans hu.1, hu.2⟩

/-- What an image has, when no image has it any more. -/
theorem spares_extents (hflat : Flat s.geo img) (hX : ∀ i b, Covers img i b → X b)
    (hown : ∀ i j b, Covers img i b → Covers img j b → i = j) :
    Spares s.geo X ((List.range (r16 img 0x2A)).map (extentAt img)) where
  bounds e he := by
    obtain ⟨i, hi, rfl⟩ := List.mem_map.mp he
    exact hflat.bounds i (List.mem_range.mp hi)
  spare e he b hb := by
    obtain ⟨i, hi, rfl⟩ := List.mem_map.mp he
    exact hX i b ⟨List.mem_range.mp hi, hb⟩
  apart := by
    rw [List.pairwise_map]
    refine List.Pairwise.imp_of_mem (fun {i j} hi hj hlt b hb hb' => ?_) List.pairwise_lt_range
    exact hlt.ne (hown i j b ⟨List.mem_range.mp hi, hb⟩ ⟨List.mem_range.mp hj, hb'⟩)

/-! ## Storing -/

/-- The inode has the image that was in `g_ino`. The other inodes in use, and their blocks, are as
they were. -/
structure Replaced (t : Fs) (ino : ℕ) (u : Fs) : Prop where
  geo : u.geo = t.geo
  stack : u.stack = t.stack
  /-- No inode has come into use or gone out of it. -/
  live : ∀ k, u.Live k ↔ t.Live k
  /-- The volume is in order. -/
  valid : Valid u
  /-- The other inodes are as they were. -/
  kept : ∀ k, k ≠ ino → t.Live k → Kept t u k
  /-- This one has the image in `g_ino`. -/
  image : Same (u.inodes ino) t.ino
  /-- What is not metadata is as it was. -/
  disk : ∀ b, ¬t.geo.IsMeta b → u.disk b = t.disk b

/-- The blocks have been given back and the counts are settled, or not. -/
theorem Replaced.of_settled {v : Fs} (hv : Valid t) (hi : t.geo.IsIno ino) (hl : t.Live ino)
    (hheld : Held v (Function.update t.table ino t.ino) Nothing) (hc : Cleared (t.stored ino) v)
    (hu : Settled v u) : Replaced t ino u := by
  have hg := hv.geo
  have hgeo : v.geo = t.geo := hc.geo
  have hgv : v.geo.Ok := hgeo.symm ▸ hg
  have hdisk : ∀ b, ¬t.geo.IsMeta b → u.disk b = t.disk b := by
    intro b hb
    rw [hu.disk_of_not_meta (hgeo.symm ▸ hb),
      hc.disk b (ne_of_not_meta hb Geometry.Ok.bbb_mem).symm]
    exact stored_disk t ino fun he => hb (he ▸ hg.slotBlock_meta hi)
  have hinodes : ∀ k, Same (u.inodes k) (Function.update t.inodes ino t.ino k) := by
    intro k
    rw [hu.inodes hgv, inodes_congr hc.geo fun i hi' => hc.disk _
      (hg.slotBlock_ne hi' Geometry.Ok.bbb_mem)]
    exact inodes_stored hg hi k
  have hlive : ∀ k, u.Live k ↔ t.Live k := by
    intro k
    have hibb : v.disk t.geo.ibb = (t.stored ino).disk t.geo.ibb := hc.disk _ hg.bbb_ne_ibb.symm
    rw [hu.live hgv, ← live_stored hg hi, Live, Live, hgeo, hibb]
    exact Iff.rfl
  have himg : Same (u.inodes ino) t.ino := by
    have := hinodes ino
    rwa [Function.update_self] at this
  refine ⟨hu.geo.trans hgeo, hu.stack.trans hc.stack, hlive, ?_,
    fun k hk hlk => ⟨hu.geo.trans hgeo, ?_, ?_⟩,
    himg, hdisk⟩
  · refine (hu.held hheld).congr fun k => ?_
    by_cases hk : k = ino
    · rw [hk, table_of_live ((hlive ino).mpr hl), Function.update_self]
      exact himg.sameMap
    · rw [Function.update_of_ne hk, table, table]
      by_cases hlk : t.Live k
      · rw [if_pos hlk, if_pos ((hlive k).mpr hlk)]
        have := hinodes k
        rw [Function.update_of_ne hk] at this
        exact this.sameMap
      · rw [if_neg hlk, if_neg fun hn => hlk ((hlive k).mp hn)]
        exact .refl _
  · have := hinodes k
    rwa [Function.update_of_ne hk] at this
  · exact fun i b hb => hdisk b (hv.not_meta (table_of_live hlk ▸ hb : Covers (t.table k) i b))

/-- **The end of `write_file` with `O_TRUNC`**: the image in `g_ino` takes the place of another. -/
theorem wp_replaceImage (hv : Valid t) (himg : Held t (Function.update t.table 0 t.ino) Nothing)
    (hi : t.geo.IsIno ino) (hl : t.Live ino) {used : ℕ}
    (hext : l = (List.range (r16 (t.inodes ino) 0x2A)).map (extentAt (t.inodes ino))) :
    wp (do
      storeInode ino
      let freed ← freeExtents l
      commitCounts (used - freed) 0 0)
      (fun _ u => Replaced t ino u) (fun u => used ≠ 0 ∧ Replaced t ino u) t := by
  have hg := hv.geo
  have hne : ino ≠ 0 := hi.1.ne'
  have hzero : t.table 0 = fun _ => 0 := by rw [table, inodes_zero, ite_self]
  have hT : t.table ino = t.inodes ino := table_of_live hl
  have hrep := Held.replace himg hne (fun i b => by rw [hzero]; exact not_covers_zero i b)
    (by rw [hzero]; exact flat_zero _)
  rw [wp_bind, wp_storeInode hg hi, wp_bind]
  refine wp_mono (wp_freeExtents (hrep.stored hi) (hext ▸ spares_extents (hT ▸ hv.flat ino) ?_ ?_))
    ?_
    fun _ => False.elim
  · exact fun i b hc => ⟨i, hT ▸ hc⟩
  · exact fun i j b hc hc' => (Prod.mk.inj (hv.own.unique (ino, i) (ino,
      j) b (hT ▸ hc) (hT ▸ hc'))).2
  · rintro freed v ⟨hc, hheld⟩
    have hreplaced : ∀ u, Settled v u → Replaced t ino u :=
      fun u hu => .of_settled hv hi hl hheld hc hu
    refine wp_commitCounts (hc.geo.symm ▸ hg) (fun _ => hreplaced _ (.refl v))
      (fun _ _ => hreplaced _ (.committed v _ _ _)) fun hcan => ⟨?_, hreplaced _ (.read1 v _)⟩
    -- Without new blocks the counts only grow.
    rintro rfl
    refine hcan ⟨?_, ?_, ?_⟩ <;> omega

/-- The old extents are the ones in the image. -/
theorem inlineExtents_eq (hflat : Flat s.geo img) (hfile : IsFile img ∨ IsDir img)
    (h : SameMap s.ino img) :
    inlineExtents s.ino = some ((List.range (r16 img 0x2A)).map (extentAt img)) := by
  have hfew := hflat.few
  rw [inlineExtents, h.flags, h.depth, h.entries, if_neg]
  · refine congrArg some (List.map_congr_left fun i hi => h.extentAt ?_)
    have := List.mem_range.mp hi
    omega
  · rintro (hf | hd | hn)
    · exact hflat.flagged hfile hf
    · exact hd hflat.depth
    · omega

/-- **A file is truncated to nothing.** -/
theorem wp_truncateFile_nil (hv : Valid s) (hi : s.geo.IsIno ino) (hl : s.Live ino)
    (hsame : Same s.ino (s.inodes ino)) (hfile : IsFile (s.inodes ino)) (data : Bytes) :
    wp (truncateFile ino data 0) (fun _ u => Replaced (s.setIno (freshFile 0)) ino u)
      (fun _ => False) s := by
  have hflat : Flat s.geo (s.inodes ino) := table_of_live hl ▸ hv.flat ino
  rw [truncateFile, wp_bind, wp_get, wp_bind, wp_ofOption,
    inlineExtents_eq hflat (.inl hfile) hsame.sameMap]
  refine ⟨?_, nofun⟩
  rintro _ ⟨⟩
  rw [wp_bind, writeFresh, wp_bind, wp_modify, wp_ite]
  refine ⟨fun _ => ?_, fun hn => absurd rfl hn⟩
  rw [wp_pure]
  have hdraft := (hv.fresh 0).image
  have hcore : (s.setIno (freshFile 0)).core = s.core := rfl
  have hreplace :=
    @wp_replaceImage (s.setIno (freshFile 0)) ino _ (hv.of_core hcore) hdraft hi hl 0 rfl
  exact wp_mono hreplace (fun _ _ => id) fun _ h => h.1 rfl

/-! ## The call -/

/-- The file is empty, and the other inodes are as they were. -/
def Emptied (s : Fs) (ino : ℕ) (u : Fs) : Prop := Intact s ino u ∧ inodeSize (u.inodes ino) = 0

theorem freshFile_nil : IsFile (freshFile 0) ∧ r16 (freshFile 0) 0x28 = kExtMagic ∧
    inodeSize (freshFile 0) = 0 := by decide +kernel

theorem Replaced.emptied (h : Replaced (s.setIno (freshFile 0)) ino u) : Emptied s ino u := by
  obtain ⟨hfile, hmagic, hsize⟩ := freshFile_nil
  have himg : Same (u.inodes ino) (freshFile 0) := h.image
  refine ⟨⟨h.geo, h.stack, h.live, h.valid, fun k hk hl => (h.kept k hk hl).of_core rfl, ?_, ?_⟩,
    ?_⟩
  · exact himg.sameMap.isFile.mpr hfile
  · exact (himg.r16 (by omega)).trans hmagic
  · exact himg.inodeSize.trans hsize

theorem Emptied.of_core {s' : Fs} (h : Emptied s' ino u) (hcore : s'.core = s.core) :
    Emptied s ino u := ⟨h.1.of_core hcore, h.2⟩

/-- **`lookup_abs`** finds what the components lead to, from any state that lists the same. -/
theorem wp_lookupAbs_still (hg : s.geo.Ok) (h : Still s t) (path : Str) :
    wp (lookupAbs path) (fun c u => Still s u ∧ s.descend (copied path s.stack) kRootIno = some c)
      (fun u => Still s u ∧ s.descend (copied path s.stack) kRootIno = none) t := by
  have hstack : t.stack = s.stack := Fs.of_core Fs.stack (fun _ => rfl) h.core
  rw [lookupAbs, wp_bind, wp_get, hstack]
  exact wp_lookupFrom_still hg h _ _

/-- The parent of what a path leads to is not there, or the path has no last component. -/
def Homeless (s : Fs) (abs : Str) : Prop :=
  lastName abs = [] ∨ s.descend (copied (parentPath abs) s.stack) kRootIno = none

/-- The path is taken apart, and the parent looked up. -/
theorem wp_locate (hg : s.geo.Ok) (h : Still s t) (base : Option Str) (path : Str) :
    wp (locate base path) (fun r u => Still s u ∧ resolve path base 256 = some r.1 ∧
      r.2.1 = lastName r.1 ∧ lastName r.1 ≠ [] ∧
      s.descend (copied (parentPath r.1) s.stack) kRootIno = some r.2.2)
      (fun u => Still s u ∧ ∀ abs, resolve path base 256 = some abs → s.Homeless abs) t := by
  rw [locate, wp_bind, wp_ofOption]
  refine ⟨fun abs habs => ?_, fun hnone => ⟨h, fun abs habs => ?_⟩⟩
  · have hself : ∀ abs', resolve path base 256 = some abs' → s.Homeless abs → s.Homeless abs' := by
      intro abs' habs'
      rw [Option.some.inj (habs.symm.trans habs')]
      exact id
    rw [wp_bind, wp_guard]
    refine ⟨fun hname => ?_,
      fun hname => ⟨h, fun abs' habs' => hself abs' habs' (.inl (not_not.mp hname))⟩⟩
    rw [wp_bind]
    refine wp_mono (wp_lookupAbs_still hg h (parentPath abs)) ?_
      fun u hu => ⟨hu.1, fun abs' habs' => hself abs' habs' (.inr hu.2)⟩
    rintro parent u ⟨hu, hparent⟩
    exact ⟨hu, habs, rfl, hname, hparent⟩
  · exact absurd (hnone.symm.trans habs) (Option.some_ne_none abs).symm

/-- **`write_file` with `O_TRUNC` and nothing to write**, where the path leads to a file: it is
truncated, if it is in a directory. -/
theorem wp_writeFile_truncate (hv : Valid s) (hi : s.geo.IsIno ino) (hl : s.Live ino)
    (hfile : IsFile (s.inodes ino)) {base : Option Str} {path abs : Str} (data : Bytes)
    (habs : resolve path base 256 = some abs)
    (hlook : s.descend (copied abs s.stack) kRootIno = some ino) (h : Still s t) :
    wp (writeFile base path data 0 oTrunc) (fun _ u => lastName abs ≠ [] ∧ Emptied s ino u)
      (fun u => Still s u ∧ s.Homeless abs) t := by
  have hg := hv.geo
  rw [writeFile, wp_bind, wp_guard]
  refine ⟨fun _ => ?_, fun hn => absurd (by decide) hn⟩
  rw [wp_bind]
  refine wp_mono (wp_locate hg h base path) ?_ fun u hu => ⟨hu.1, hu.2 abs habs⟩
  rintro ⟨abs', name, parent⟩ u ⟨hu, habs', -, hlast, -⟩
  obtain rfl : abs = abs' := Option.some.inj (habs.symm.trans habs')
  rw [wp_bind, wp_attempt]
  refine wp_mono (wp_lookupAbs_still hg hu abs) ?_ ?_
  · rintro c v ⟨hv', hc⟩
    obtain rfl : ino = c := Option.some.inj (hlook.symm.trans hc)
    rw [wp_bind, wp_guard]
    refine ⟨fun _ => ?_, fun hn => absurd (by decide) hn⟩
    have hgv : v.geo.Ok := hv'.geo.symm ▸ hg
    have hiv : v.geo.IsIno ino := hv'.geo.symm ▸ hi
    have hsame := loaded_ino hgv hiv
    rw [wp_bind, wp_loadInode hgv]
    refine ⟨fun _ => ?_, fun hn => absurd hiv hn⟩
    have hcore : (v.loaded ino).core = s.core := Eq.trans rfl hv'.core
    have hinodes := core_inodes hcore
    have hsame' : Same (v.loaded ino).ino ((v.loaded ino).inodes ino) := hsame
    generalize v.loaded ino = w at hcore hinodes hsame' ⊢
    rw [wp_bind, wp_get, wp_bind, wp_guard]
    refine ⟨fun _ => ?_, fun hn => absurd (hsame'.sameMap.isFile.mpr (hinodes.symm ▸ hfile)) hn⟩
    rw [wp_ite]
    refine ⟨fun _ => ?_, fun hn => absurd (by decide) hn⟩
    refine wp_mono (wp_truncateFile_nil (hv.of_core hcore) (core_geo hcore ▸ hi)
      ((core_live hcore).mpr hl)
      hsame' (hinodes.symm ▸ hfile) data) (fun _ u hu => ?_) fun _ => False.elim
    exact ⟨hlast, hu.emptied.of_core hcore⟩
  · rintro v ⟨-, hnone⟩
    exact absurd (hlook.symm.trans hnone) (Option.some_ne_none _)

end Fs

end Aurisys
