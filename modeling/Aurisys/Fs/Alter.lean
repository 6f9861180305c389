import Aurisys.Fs.Rooted

/-!
# Changing one file

`write_file` with `O_APPEND` and `write_at` work on the image that a file has: they write blocks it
has and enter new ones into it, and store it at the end. In between the image is a draft, whatever
it has become so far, and so it can be stored at any time; and where it is not stored, what has been
written are blocks that only this file has. So one way or the other nothing beside the file is
touched, and the tree is as it was.

## Main definitions

* `Drafting`, `Dropping` — the image of a file is being worked on, or the work has been given up
* `Loaded` — a file is loaded

## Main results

* `Loaded.wp_appendFile`
* `wp_writeAt_onward`
-/

namespace Aurisys

open Bytes Fallible

namespace Fs

/-- The image of a file is being worked on: it is a draft, and no metadata but the block bitmap has
been written. -/
structure Drafting (s : Fs) (ino : ℕ) (t : Fs) : Prop where
  draft : ∃ k, Draft s s.table ino Nothing k t
  framed : Framed s t
  file : IsFile t.ino

/-- The work on it has been given up. -/
structure Dropping (s : Fs) (ino : ℕ) (t : Fs) : Prop where
  stock : ∃ k, Stock s s.table ino Nothing k t
  framed : Framed s t

/-- A file is in use, and its image is in `g_ino`. -/
structure Loaded (s : Fs) (ino : ℕ) : Prop where
  rooted : Rooted s
  inUse : InUse s ino
  file : IsFile (s.inodes ino)
  image : Same s.ino (s.inodes ino)

variable {s s' t u : Fs} {ino k : ℕ} {img data buf : Bytes}

theorem Drafting.dropping (h : Drafting s ino t) : Dropping s ino t := by
  obtain ⟨k, hk⟩ := h.draft
  exact ⟨⟨k, hk.toStock⟩, h.framed⟩

namespace Dropping

variable (h : Dropping s ino t)

include h

/-- The buffers do not matter. -/
theorem of_core (hcore : u.core = t.core) : Dropping s ino u := by
  obtain ⟨k, hk⟩ := h.stock
  refine ⟨⟨k, hk.of_core hcore⟩, (Fs.of_core Fs.stack (fun _ => rfl) hcore).trans h.framed.stack,
    ?_⟩
  rw [core_disk hcore]
  exact h.framed.disk

theorem geo : t.geo = s.geo := h.stock.choose_spec.tally.geo

theorem live_iff (hg : s.geo.Ok) (k : ℕ) : t.Live k ↔ s.Live k := by
  rw [Live, Live, h.geo, h.framed.disk _ (Geometry.Ok.single_meta Geometry.Ok.ibb_mem)
    hg.bbb_ne_ibb.symm]

theorem inodes : t.inodes = s.inodes := h.stock.choose_spec.inodes

theorem table (hg : s.geo.Ok) : t.table = s.table := by
  funext k
  simp only [Fs.table, h.inodes, h.live_iff hg]

/-- The blocks of the other inodes have not been written. -/
theorem disk (hv : Valid s) {x b : ℕ} (hk : k ≠ ino) (hl : s.Live k)
    (hc : Covers (s.inodes k) x b) :
    t.disk b = s.disk b := by
  obtain ⟨_, hstock⟩ := h.stock
  rw [← table_of_live hl] at hc
  refine hstock.data b (hv.own.own_used (k, x) b hc) (hv.not_meta hc) fun x' hc' => hk ?_
  exact (Prod.mk.inj (hv.own.unique (k, x) (ino, x') b hc hc')).1

/-- **Nothing has been stored.** -/
theorem apart (hv : Valid s) (hb : Blank s) : Apart s ino t := by
  have hg := hv.geo
  refine ⟨h.geo, h.framed.stack, h.live_iff hg, ?_, fun k hk hl => ⟨h.geo, ?_,
    fun x b => h.disk hv hk hl⟩,
    .of_inodes hb h.inodes⟩
  · rw [Valid, h.table hg]
    exact h.stock.choose_spec.table
  · rw [h.inodes]
    exact .refl _

end Dropping

namespace Drafting

variable (h : Drafting s ino t)

include h

theorem geo : t.geo = s.geo := h.dropping.geo

theorem flat : Flat t.geo t.ino := h.draft.choose_spec.flat

theorem ok : t.geo.Ok := h.draft.choose_spec.geo

theorem of_core (hcore : u.core = t.core) (hino : u.ino = t.ino) : Drafting s ino u := by
  obtain ⟨k, hk⟩ := h.draft
  exact ⟨⟨k, hk.of_core hcore hino⟩, (h.dropping.of_core hcore).framed, hino.symm ▸ h.file⟩

/-- **A block of the image is written.** -/
theorem setDisk {b p : ℕ} (hm : mapFlat t.ino b = some p) (D : Bytes) :
    Drafting s ino (t.setDisk p D) := by
  obtain ⟨k, hk⟩ := h.draft
  obtain ⟨hmeta, hown⟩ := hk.mapped hm
  refine ⟨⟨k, hk.setDisk hmeta hown D⟩, ⟨h.framed.stack, fun c hc hne => ?_⟩, h.file⟩
  refine (Function.update_of_ne ?_ _ _).trans (h.framed.disk c hc hne)
  rintro rfl
  exact hmeta (h.geo.symm ▸ hc)

/-- The image changes outside its map. -/
theorem setIno (hmap : SameMap img t.ino) : Drafting s ino (t.setIno img) := by
  obtain ⟨k, hk⟩ := h.draft
  exact ⟨⟨k, hk.setIno hmap⟩, ⟨h.framed.stack, h.framed.disk⟩, hmap.isFile.mpr h.file⟩

/-- **A run goes into the image.** -/
theorem extend {n first : ℕ} (hrun : t.freeRun n = some first) (l : ℕ) (he : r16 t.ino 0x2A < 4)
    (hn : n ≤ 32767) :
    Drafting s ino ((t.taken first n).setIno (addExtent t.ino l n first)) := by
  obtain ⟨k, hk⟩ := h.draft
  obtain ⟨hpos, hle, -⟩ := hk.table.freeRun hrun
  refine ⟨⟨_, (hk.taken hrun).addExtent l he ⟨hpos, hn⟩ hle⟩,
    ⟨h.framed.stack, fun b hb hne => ?_⟩, ?_⟩
  · change (t.taken first n).disk b = _
    rw [taken_disk (hle.trans h.ok.blocks), Function.update_of_ne (h.geo.symm ▸ hne)]
    exact h.framed.disk b hb hne
  · have hmode : r16 (addExtent t.ino l n first) 0 = r16 t.ino 0 :=
      r16_congr fun j hj => addExtent_apply t.ino l n first (by omega) (by omega)
    rw [setIno_ino, IsFile, hmode]
    exact h.file

/-- **The image is stored and the counts are settled**, or not. -/
theorem stored (hv : Valid s) (hb : Blank s) (hi : s.geo.IsIno ino) (hl : s.Live ino)
    (hu : Settled (t.stored ino) u) :
    Apart s ino u ∧ Same (u.inodes ino) t.ino := by
  obtain ⟨k, hk⟩ := h.draft
  have hg := hv.geo
  have hgeo := h.geo
  have hgt : (t.stored ino).geo.Ok := h.ok
  have hit : t.geo.IsIno ino := hgeo.symm ▸ hi
  have hinodes : ∀ i, Same (u.inodes i) (Function.update s.inodes ino t.ino i) := by
    intro i
    rw [hu.inodes hgt]
    exact hk.inodes_stored hit i
  have himg : Same (u.inodes ino) t.ino := by
    have := hinodes ino
    rwa [Function.update_self] at this
  have hrest : ∀ i, i ≠ ino → Same (u.inodes i) (s.inodes i) := by
    intro i hne
    have := hinodes i
    rwa [Function.update_of_ne hne] at this
  have hlive : ∀ i, u.Live i ↔ s.Live i := fun i => by
    rw [hu.live hgt, live_stored h.ok hit, h.dropping.live_iff hg]
  refine ⟨⟨hu.geo.trans hgeo, hu.stack.trans h.framed.stack, hlive, ?_,
    fun i hne hli => ⟨hu.geo.trans hgeo,
    hrest i hne, fun x b hc => ?_⟩, fun i hi' hli => .inl ?_⟩, himg⟩
  · refine (hu.held (hk.stored hit)).congr fun i => ?_
    by_cases hne : i = ino
    · rw [hne, Function.update_self, table_of_live ((hlive ino).mpr hl)]
      exact himg.sameMap
    · rw [Function.update_of_ne hne, table, table]
      by_cases hli : s.Live i
      · rw [if_pos hli, if_pos ((hlive i).mpr hli)]
        exact (hrest i hne).sameMap
      · rw [if_neg hli, if_neg fun hn => hli ((hlive i).mp hn)]
        exact .refl _
  · have hmeta : ¬t.geo.IsMeta b :=
      hgeo.symm ▸ hv.not_meta (table_of_live hli ▸ hc : Covers (s.table i) x b)
    have hslot : b ≠ t.geo.slotBlock ino := by
      rintro rfl
      exact hmeta (h.ok.slotBlock_meta hit)
    rw [hu.disk_of_not_meta hmeta, stored_disk t ino hslot]
    exact h.dropping.disk hv hne hli hc
  · have hne : i ≠ ino := fun he => hli (he ▸ hl)
    exact (hb i hi' hli).of_same (hrest i hne)

end Drafting

/-! ## The tree -/

namespace Loaded

variable (h : Loaded s ino)

include h

/-- The image of a file is a draft for it. -/
theorem drafting : Drafting s ino s := by
  have hT := table_of_live h.inUse.2
  refine ⟨⟨0, ?_⟩, ⟨rfl, fun _ _ _ => rfl⟩, h.image.sameMap.isFile.mpr h.file⟩
  have hsame : SameMap s.ino (s.table ino) := hT ▸ h.image.sameMap
  have hheld : Held s s.table Nothing := h.rooted.valid
  exact ⟨hheld.stock ino, hheld.updateMap hsame,
    fun i b hc => .inl ((hsame.covers (hheld.flat ino)).mp hc)⟩

theorem onward_of_dropping (ht : Dropping s ino t) : Onward (· = ino) s t := by
  have hv := h.rooted.valid
  refine h.rooted.onward_apart (ht.apart hv h.rooted.blank) h.inUse.2 h.file ?_
  rw [ht.inodes]
  exact h.file.not_isDir

/-- **The image is stored**, and is loaded. -/
theorem stored (ht : Drafting s ino t) (hu : Settled (t.stored ino) u) :
    Loaded u ino ∧ Onward (· = ino) s u := by
  obtain ⟨hapart, himg⟩ := ht.stored h.rooted.valid h.rooted.blank h.inUse.1 h.inUse.2 hu
  have hfile : IsFile (u.inodes ino) := himg.sameMap.isFile.mpr ht.file
  have honward := h.rooted.onward_apart hapart h.inUse.2 h.file hfile.not_isDir
  refine ⟨⟨honward.rooted, ⟨hapart.geo.symm ▸ h.inUse.1, (hapart.live ino).mpr h.inUse.2⟩, hfile,
    ?_⟩, honward⟩
  rw [hu.ino]
  exact himg.symm

/-- The end of both functions: the image is stored and the counts are settled. -/
theorem wp_store (ht : Drafting s ino t) (ub : ℤ) :
    wp (do storeInode ino; commitCounts ub 0 0) (fun _ u => Loaded u ino ∧ Onward (· = ino) s u)
      (fun u => Onward (· = ino) s u) t := by
  have hit : t.geo.IsIno ino := ht.geo.symm ▸ h.inUse.1
  rw [wp_bind, wp_storeInode ht.ok hit]
  exact wp_mono (wp_commitCounts_settled (show (t.stored ino).geo.Ok from ht.ok) _ _ _)
    (fun _ u hu => h.stored ht hu) fun u hu => (h.stored ht hu).2

end Loaded

/-! ## Appending -/

theorem wp_fillTail {oldSize len : ℕ} (h : Drafting s ino t) :
    wp (fillTail oldSize data len) (fun _ u => Drafting s ino u) (fun u => Dropping s ino u) t := by
  rw [fillTail, wp_bind, wp_get, wp_ite]
  refine ⟨fun _ => h, fun _ => ?_⟩
  rw [wp_bind]
  refine wp_mapLblock h.flat (.inl h.file) (fun p hp => ?_) fun _ => h.dropping
  have hread : Drafting s ino (t.read2 p) := h.of_core rfl rfl
  rw [wp_bind, wp_readB2]
  refine ⟨fun _ => ?_, fun _ => h.dropping⟩
  generalize hu : t.read2 p = u at hread
  have hpu : mapFlat u.ino (oldSize / t.geo.bs) = some p := by
    rw [← hu]
    exact hp
  rw [wp_bind, wp_setWriteB2]
  generalize memcpy u.b2 _ data 0 _ = b
  have hset : Drafting s ino (u.setB2 b) := hread.of_core rfl rfl
  refine ⟨fun _ => ?_, fun _ => hset.dropping⟩
  rw [putBlock_eq, wp_pure]
  exact hset.setDisk hpu _

theorem wp_appendBlocks {d len lstart : ℕ} (h : Drafting s ino t) :
    wp (appendBlocks data d len lstart) (fun _ u => Drafting s ino u)
      (fun u => Dropping s ino u) t := by
  obtain ⟨k, hk⟩ := h.draft
  rw [appendBlocks, wp_ite]
  refine ⟨fun _ => ?_, fun _ => h⟩
  refine wp_mono (wp_and (wp_writeBlocks hk) (wp_writeBlocks_framed hk h.framed)) (fun r u hu => ?_)
    fun u hu => ?_
  · obtain ⟨hdraft, hf, hmode⟩ := hu
    refine ⟨⟨_, hdraft⟩, hf, ?_⟩
    rw [IsFile, hmode]
    exact h.file
  · obtain ⟨⟨m, hstock⟩, hf⟩ := hu
    exact ⟨⟨_, hstock⟩, hf⟩

/-- **`write_file` with `O_APPEND`** keeps the tree in order. -/
theorem Loaded.wp_appendFile (h : Loaded s ino) {len : ℕ} :
    wp (appendFile ino data len) (fun _ u => Onward (· = ino) s u)
      (fun u => Onward (· = ino) s u) s := by
  have hdrop : ∀ u, Dropping s ino u → Onward (· = ino) s u := fun _ => h.onward_of_dropping
  rw [appendFile, wp_bind, wp_get, wp_bind, wp_guard]
  refine ⟨fun _ => ?_, fun _ => .refl h.rooted⟩
  rw [wp_bind]
  refine wp_mono (wp_fillTail h.drafting) (fun d t ht => ?_) hdrop
  rw [wp_bind]
  refine wp_mono (wp_appendBlocks ht) (fun used u hu => ?_) hdrop
  rw [wp_bind, wp_modify]
  refine wp_mono (h.wp_store (hu.setIno ?_) used) (fun _ v hv => hv.2) fun _ => id
  exact (SameMap.w32 _ _ (by omega)).trans (.w32 _ _ (by omega))

/-! ## Writing at an offset -/

/-- **The rounds of `write_at`.** -/
theorem wp_writeAtLoop_drafting {off len oldSize fuel done total : ℕ} (h : Drafting s ino t) :
    wp (writeAtLoop buf off len oldSize fuel done total) (fun _ u => Drafting s ino u)
      (fun u => Dropping s ino u) t := by
  induction fuel generalizing t done total with
  | zero => exact h.dropping
  | succ fuel ih =>
    rw [writeAtLoop, wp_ite]
    refine ⟨fun _ => h, fun _ => ?_⟩
    rw [wp_bind, wp_get, wp_bind, wp_attempt]
    refine wp_mapLblock h.flat (.inl h.file) (fun p hp => ?_) fun _ => ?_
    · rw [wp_bind, wp_readB1]
      refine ⟨fun _ => ?_, fun _ => h.dropping⟩
      have hread : Drafting s ino (t.read1 p) := h.of_core rfl rfl
      have hpu : mapFlat (t.read1 p).ino (u32 (off + done) / t.geo.bs) = some p := hp
      generalize t.read1 p = u at hread hpu
      rw [wp_bind, wp_modify, wp_bind, wp_writeB1]
      generalize memcpy u.b1 _ buf done _ = b
      have hset : Drafting s ino (u.setB1 b) := hread.of_core rfl rfl
      refine ⟨fun _ => ?_, fun _ => hset.dropping⟩
      rw [putBlock_eq]
      exact ih (hset.setDisk hpu _)
    · rw [wp_bind, wp_guard]
      refine ⟨fun _ => ?_, fun _ => h.dropping⟩
      rw [wp_bind, wp_get, wp_bind, wp_guard]
      refine ⟨fun he => ?_, fun _ => h.dropping⟩
      generalize u32 (off + len + (2 ^ 32 - u32 (off + done) / t.geo.bs * t.geo.bs) + t.geo.bs - 1)
        / t.geo.bs = need
      rw [wp_bind, wp_guard]
      refine ⟨fun hneed => ?_, fun _ => h.dropping⟩
      rw [wp_bind]
      refine wp_allocBlocks h.ok (fun first hrun => ?_) fun _ => ⟨h.dropping,
        h.dropping.of_core rfl⟩
      rw [wp_bind, wp_modify]
      have hext := h.extend hrun (u32 (off + done) / t.geo.bs) he hneed.2
      exact ih (hext.setIno (.w32 _ _ (by omega)))

/-- The gap is filled one piece after the other. -/
theorem wp_fillGap_loaded {write : Bytes → ℕ → ℕ → Act Unit} {off fuel at_ : ℕ}
    (hwrite : ∀ b o l t, Loaded t ino →
      wp (write b o l) (fun _ u => Loaded u ino ∧ Onward (· = ino) t u)
      (fun u => Onward (· = ino) t u) t)
    (h : Loaded t ino) :
    wp (fillGap write off fuel at_) (fun _ u => Loaded u ino ∧ Onward (· = ino) t u)
      (fun u => Onward (· = ino) t u) t := by
  induction fuel generalizing t at_ with
  | zero => exact .refl h.rooted
  | succ fuel ih =>
    rw [fillGap, wp_ite]
    refine ⟨fun _ => ⟨h, .refl h.rooted⟩, fun _ => ?_⟩
    rw [wp_bind, wp_get, wp_bind]
    refine wp_mono (hwrite _ _ _ t h) (fun _ u hu => ?_) fun _ => id
    exact wp_mono (ih hu.1) (fun _ v hv => ⟨hv.1, hu.2.trans hv.2⟩) fun v hv => hu.2.trans hv

/-- **`write_at`** with what it does where there is a gap. -/
theorem wp_writeAtBody_loaded {self : Bytes → ℕ → ℕ → Act Unit} {off len : ℕ} (hs : Rooted s)
    (hself : ∀ b o l t, Loaded t ino →
      wp (self b o l) (fun _ u => Loaded u ino ∧ Onward (· = ino) t u)
      (fun u => Onward (· = ino) t u) t) :
    wp (writeAtBody self ino buf off len) (fun _ u => Loaded u ino ∧ Onward (· = ino) s u)
      (fun u => Onward (· = ino) s u) s := by
  have hg := hs.valid.geo
  have hcore : (s.loaded ino).core = s.core := rfl
  rw [writeAtBody_eq, wp_bind, wp_loadInode hg]
  refine ⟨fun hi => ?_, fun _ => .refl hs⟩
  have hsame := loaded_ino hg hi
  have honward : Onward (· = ino) s (s.loaded ino) := .of_core hs hcore
  generalize s.loaded ino = t at hcore hsame honward ⊢
  rw [wp_bind, wp_get, wp_bind, wp_guard]
  refine ⟨fun hfile => ?_, fun _ => honward⟩
  -- An inode that is not in use is blank, so this one is.
  have hfile' : IsFile (s.inodes ino) := hsame.sameMap.isFile.mp hfile
  have hl : s.Live ino := by
    by_contra hn
    exact (hs.blank ino hi hn).not_isFile hfile'
  have hloaded : Loaded t ino := ⟨honward.rooted, ⟨core_geo hcore ▸ hi, (core_live hcore).mpr hl⟩,
    core_inodes hcore ▸ hfile', core_inodes hcore ▸ hsame⟩
  rw [wp_bind, wp_guard]
  refine ⟨fun _ => ?_, fun _ => honward⟩
  rw [wp_bind]
  refine wp_mono (wp_fillGap_loaded hself hloaded) (fun _ u hu => ?_) fun u hu => honward.trans hu
  have hu₂ := honward.trans hu.2
  rw [writeTail, wp_bind, wp_get, wp_bind]
  refine wp_mono (wp_writeAtLoop_drafting hu.1.drafting) (fun total v hv => ?_)
    fun v hv => hu₂.trans (hu.1.onward_of_dropping hv)
  rw [wp_bind, wp_modify]
  refine wp_mono (hu.1.wp_store (hv.setIno ?_) _) (fun _ w hw => ⟨hw.1, hu₂.trans hw.2⟩)
    fun w hw => hu₂.trans hw
  split
  · exact .w32 _ _ (by omega)
  · exact .refl _

/-- **`write_at`** keeps the tree in order, whatever it is called with. -/
theorem wp_writeAt_onward {off len : ℕ} (hs : Rooted s) :
    wp (writeAt ino buf off len) (fun _ u => Onward (· = ino) s u)
      (fun u => Onward (· = ino) s u) s :=
  wp_mono (wp_writeAtBody_loaded hs fun _ _ _ _ ht => wp_writeAtBody_loaded ht.rooted
    fun _ _ _ _ ht' => .refl ht'.rooted) (fun _ _ hu => hu.2) fun _ => id

end Fs

end Aurisys
