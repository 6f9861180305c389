import Aurisys.Fs.Fill

/-!
# What is beside the inodes of a call

A call works on an inode or two. That the others in use keep their image and their blocks is said
where the call is looked at (`Kept`); here it is that those that are not in use stay as they are as
well, and stay free. On a volume whose free inodes are blank this keeps them blank, so that an inode
that is taken by a call which then gives up has no blocks, and is neither a file nor a directory.

## Main definitions

* `Beside` — the inodes that are not in a set are as they were

## Main results

* `wp_dirAddEntry_beside`, `wp_replaceImage_beside`
-/

namespace Aurisys

open Bytes Fallible

namespace Fs

/-- The inodes outside `P` have the images they had, and the same ones of them are in use. None has
become free. -/
structure Beside (s : Fs) (P : ℕ → Prop) (u : Fs) : Prop where
  geo : u.geo = s.geo
  grows : ∀ k, s.Live k → u.Live k
  live : ∀ k, s.geo.IsIno k → ¬P k → (u.Live k ↔ s.Live k)
  inodes : ∀ k, ¬P k → Same (u.inodes k) (s.inodes k)

variable {s s₀ t u v : Fs} {P Q : ℕ → Prop} {T : ℕ → Bytes} {X : ℕ → Prop}
  {b d i j ino first n p type : ℕ}
  {k : ℤ} {name : Str} {l : List (ℕ × ℕ)}

namespace Beside

theorem mono (h : Beside s P t) (hPQ : ∀ k, P k → Q k) : Beside s Q t :=
  ⟨h.geo, h.grows, fun k hi hk => h.live k hi fun hp => hk (hPQ k hp),
    fun k hk => h.inodes k fun hp => hk (hPQ k hp)⟩

theorem trans (h : Beside s P t) (h' : Beside t P u) : Beside s P u :=
  ⟨h'.geo.trans h.geo, fun k hk => h'.grows k (h.grows k hk),
    fun k hi hk => (h'.live k (h.geo.symm ▸ hi) hk).trans (h.live k hi hk),
    fun k hk => (h'.inodes k hk).trans (h.inodes k hk)⟩

/-- The table and the inode bitmap are as they were. -/
theorem of_table (hgeo : u.geo = s.geo) (hibb : u.disk s.geo.ibb = s.disk s.geo.ibb)
    (hinodes : u.inodes = s.inodes) : Beside s P u := by
  have hlive : ∀ k, u.Live k ↔ s.Live k := fun k => by rw [Live, Live, hgeo, hibb]
  refine ⟨hgeo, fun k => (hlive k).mpr, fun k _ _ => hlive k, fun k _ => ?_⟩
  rw [hinodes]
  exact .refl _

theorem of_core (h : u.core = s.core) : Beside s P u :=
  .of_table (core_geo h) (by rw [core_disk h]) (core_inodes h)

/-- Only the block bitmap has changed. -/
theorem of_bbb (hg : s.geo.Ok) (hgeo : u.geo = s.geo) (hdisk : ∀ b, b ≠ s.geo.bbb →
      u.disk b = s.disk b) :
    Beside s P u :=
  .of_table hgeo (hdisk _ hg.bbb_ne_ibb.symm)
    (inodes_congr hgeo fun _ hi => hdisk _ (hg.slotBlock_ne hi Geometry.Ok.bbb_mem))

/-- **A block is written** that holds no metadata. -/
theorem setDisk (hg : s.geo.Ok) (hb : ¬s.geo.IsMeta b) (D : Bytes) : Beside s P (s.setDisk b D) :=
  .of_table rfl (Function.update_of_ne (ne_of_not_meta hb Geometry.Ok.ibb_mem) _ _)
    (inodes_setDisk hg hb D)

theorem taken (hg : s.geo.Ok) (hle : first + n ≤ 8 * s.geo.bs) : Beside s P (s.taken first n) :=
  .of_bbb hg rfl fun b hb => by rw [taken_disk hle, Function.update_of_ne hb]

/-- **An image is stored** in one of the inodes of the call. -/
theorem stored (hg : s.geo.Ok) (hi : s.geo.IsIno ino) (hP : P ino) : Beside s P (s.stored ino) := by
  refine ⟨rfl, fun k => (live_stored hg hi).mpr, fun k _ _ => live_stored hg hi, fun k hk => ?_⟩
  have hne : k ≠ ino := by
    rintro rfl
    exact hk hP
  have := inodes_stored hg hi k
  rwa [Function.update_of_ne hne] at this

/-- **An inode is taken.** -/
theorem inodeTaken (hg : s.geo.Ok) (hnext : s.nextInode = some i) (hP : P (i + 1)) :
    Beside s P (s.inodeTaken i) := by
  refine ⟨rfl, fun k hk => (live_inodeTaken hg hnext k).mpr (.inl hk), fun k hk hp => ?_,
    fun k _ => ?_⟩
  · have hpos := hk.1
    refine (live_inodeTaken hg hnext k).trans (or_iff_left fun he => hp ?_)
    obtain rfl : k = i + 1 := by omega
    exact hP
  · rw [inodes_inodeTaken hg hnext]
    exact .refl _

theorem settled (hg : s.geo.Ok) (h : Settled s u) : Beside s P u :=
  .of_table h.geo (h.ibb hg) (h.inodes hg)

/-- **What has been made up** has not changed the table. -/
theorem stock (h : Stock s T j X k t) (hf : Framed s t) (hg : s.geo.Ok) : Beside s P t :=
  .of_table h.tally.geo (hf.disk _ (Geometry.Ok.single_meta Geometry.Ok.ibb_mem)
    hg.bbb_ne_ibb.symm) h.inodes

end Beside

/-! ## Adding an entry -/

/-- **`dir_add_entry`** changes the directory. -/
theorem wp_growDir_beside (hv : Valid s) (hi : s.geo.IsIno d) (hP : P d) {size nblk : ℕ}
    (hcore : t.core = s.core) :
    wp (growDir d name ino type size nblk) (fun _ u => Beside s P u) (fun u => Beside s P u) t := by
  have hg := hv.geo
  have hgeo := core_geo hcore
  rw [growDir, wp_bind]
  refine wp_allocBlocks (hgeo ▸ hg) (fun p hp => ?_) fun _ => ⟨.of_core hcore,
    .of_core (Eq.trans rfl hcore)⟩
  have hrun : s.freeRun 1 = some p := (core_freeRun hcore 1).symm.trans hp
  obtain ⟨hlt, -⟩ := free_of_freeRun hv hrun
  have hmeta := not_meta_of_freeRun hv hrun
  have htaken : (t.taken p 1).core = (s.taken p 1).core := core_taken hcore (hv.le_bits (by omega))
  have hbeside : Beside s P (s.taken p 1) := .taken hg (hv.le_bits (by omega))
  rw [wp_bind, wp_setWriteB2]
  generalize w8 (w16 (w32 _ 0 0) 4 _) 6 0 = B
  refine ⟨fun _ => ?_, fun _ => hbeside.trans (.of_core htaken)⟩
  rw [putBlock_eq]
  generalize memcpy _ 0 B 0 _ = D
  have hcore₁ : (((t.taken p 1).setB2 B).setDisk p D).core = ((s.taken p 1).setDisk p D).core :=
    core_setDisk htaken p D
  generalize ((t.taken p 1).setB2 B).setDisk p D = t₁ at hcore₁ ⊢
  have hgeo₁ := took_geo hcore₁
  have hbeside₁ : Beside s P t₁ :=
    .of_table hgeo₁ (took_disk hg hlt hcore₁ hg.bbb_ne_ibb.symm (ne_of_not_meta hmeta
      Geometry.Ok.ibb_mem))
      (took_inodes hg hlt hmeta hcore₁)
  have hi₁ : t₁.geo.IsIno d := hgeo₁.symm ▸ hi
  rw [wp_bind, wp_loadInode (hgeo₁.symm ▸ hg)]
  refine ⟨fun _ => ?_, fun hn => absurd hi₁ hn⟩
  have hbeside₂ : Beside s P (t₁.loaded d) := hbeside₁.trans (.of_core rfl)
  generalize t₁.loaded d = t₂ at hbeside₂ ⊢
  rw [wp_bind, wp_get, wp_bind, wp_guard]
  refine ⟨fun _ => ?_, fun _ => hbeside₂⟩
  rw [wp_bind, wp_guard]
  refine ⟨fun _ => ?_, fun _ => hbeside₂⟩
  rw [wp_bind, wp_modify]
  generalize hgrown : t₂.setIno _ = t₃
  have hbeside₃ : Beside s P t₃ := hgrown ▸ hbeside₂.trans (.of_core rfl)
  rw [wp_bind, wp_setWriteB2]
  generalize putDirent t₃.b2 0 ino _ name type = B
  refine ⟨fun _ => ?_, fun _ => hbeside₃.trans (.of_core rfl)⟩
  rw [putBlock_eq]
  generalize memcpy _ 0 B 0 _ = D'
  have hmeta₃ : ¬(t₃.setB2 B).geo.IsMeta p := hbeside₃.geo.symm ▸ hmeta
  have hbeside₄ : Beside s P ((t₃.setB2 B).setDisk p D') :=
    (hbeside₃.trans (.of_core (u := t₃.setB2 B) rfl)).trans
      (.setDisk (hbeside₃.geo.symm ▸ hg) hmeta₃ D')
  generalize (t₃.setB2 B).setDisk p D' = t₄ at hbeside₄ ⊢
  have hg₄ : t₄.geo.Ok := hbeside₄.geo.symm ▸ hg
  have hi₄ : t₄.geo.IsIno d := hbeside₄.geo.symm ▸ hi
  rw [wp_storeInode hg₄ hi₄]
  exact hbeside₄.trans (.stored hg₄ hi₄ hP)

/-- **`dir_add_entry`** changes the directory and no other inode. -/
theorem wp_dirAddEntry_beside (hv : Valid s) (hl : s.Live d) (hP : P d) (hcore : t.core = s.core) :
    wp (dirAddEntry d name ino type) (fun _ u => Beside s P u) (fun u => Beside s P u) t := by
  have hg := hv.geo
  have hgeo := core_geo hcore
  have hflat : Flat s.geo (s.inodes d) := table_of_live hl ▸ hv.flat d
  have hstay : ∀ u : Fs, u.core = s.core → Beside s P u := fun _ => .of_core
  rw [dirAddEntry, wp_bind, wp_get, wp_bind, wp_guard]
  refine ⟨fun _ => ?_, fun _ => hstay t hcore⟩
  rw [wp_bind, wp_loadInode (hgeo.symm ▸ hg)]
  refine ⟨fun hi => ?_, fun _ => hstay t hcore⟩
  have hi : s.geo.IsIno d := hgeo ▸ hi
  have hcore₁ : (t.loaded d).core = s.core := Eq.trans rfl hcore
  generalize t.loaded d = t₁ at hcore₁ ⊢
  rw [wp_bind, wp_get, wp_bind, wp_guard]
  refine ⟨fun _ => ?_, fun _ => hstay t₁ hcore₁⟩
  have hflat₁ : Flat t₁.geo (t₁.inodes d) := by
    rw [core_geo hcore₁, core_inodes hcore₁]
    exact hflat
  rw [wp_bind]
  refine wp_mono (wp_addInBlocks (core_geo hcore₁ ▸ hg) hflat₁ _) ?_ fun u hu =>
    hstay u (hu.trans hcore₁)
  rintro (_ | _) u hu
  · exact wp_growDir_beside hv hi hP (hu.1.trans hcore₁)
  · obtain ⟨c, q, D, hm, hcore₂⟩ := hu
    rw [core_inodes hcore₁] at hm
    have hmeta : ¬s.geo.IsMeta q :=
      hv.mapFlat_not_meta (table_of_live hl ▸ hm : mapFlat (s.table d) c = some q)
    exact (Beside.setDisk hg hmeta D).trans (.of_core (hcore₂.trans (core_setDisk hcore₁ q D)))

/-! ## Storing an image over another -/

/-- **Blocks are given back**: at most the block bitmap changes. -/
theorem wp_freeExtents_cleared (l : List (ℕ × ℕ)) :
    wp (freeExtents l) (fun _ u => Cleared s u) (fun u => Cleared s u) s := by
  suffices H : ∀ t, Cleared s t → wp (freeExtents l) (fun _ u => Cleared s u)
    (fun u => Cleared s u) t from
    H s (.refl s)
  induction l with
  | nil => exact fun t ht => ht
  | cons e l ih =>
    intro t ht
    rw [freeExtents, wp_bind]
    refine wp_mono (Q := fun _ u => Cleared s u) (E := fun u => Cleared s u) ?_
      (fun _ u hu => ?_) fun _ => id
    · rw [freeBlocksAt, wp_bind, wp_get, wp_bind, wp_guard]
      refine ⟨fun _ => ?_, fun _ => ht⟩
      rw [wp_bind, wp_readB1]
      refine ⟨fun _ => ?_, fun _ => ht⟩
      rw [wp_bind, wp_modify, wp_writeB1]
      refine ⟨fun _ => ?_, fun _ => ht.trans ⟨rfl, rfl, fun _ _ => rfl⟩⟩
      exact ht.trans ⟨rfl, rfl, fun b hb => Function.update_of_ne hb _ _⟩
    · rw [wp_bind]
      exact wp_mono (ih u hu) (fun _ _ => id) fun _ => id

theorem wp_commitCounts_settled (hg : s.geo.Ok) (ub ui ud : ℤ) :
    wp (commitCounts ub ui ud) (fun _ u => Settled s u) (fun u => Settled s u) s :=
  wp_settle hg (fun _ => id) fun _ _ => id

/-- **The end of `write_file` with `O_TRUNC`** changes the file. -/
theorem wp_replaceImage_beside (hg : s.geo.Ok) (hi : s.geo.IsIno ino) (hP : P ino) (used : ℕ) :
    wp (do
      storeInode ino
      let freed ← freeExtents l
      commitCounts (used - freed) 0 0) (fun _ u => Beside s P u) (fun u => Beside s P u) s := by
  have hstored : Beside s P (s.stored ino) := .stored hg hi hP
  have hgs : (s.stored ino).geo.Ok := hg
  rw [wp_bind, wp_storeInode hg hi, wp_bind]
  refine wp_mono (wp_freeExtents_cleared l) (fun freed u hu => ?_) fun u hu =>
    hstored.trans (.of_bbb hgs hu.geo hu.disk)
  have hbeside : Beside s P u := hstored.trans (.of_bbb hgs hu.geo hu.disk)
  have hgu : u.geo.Ok := hu.geo.symm ▸ hgs
  exact wp_mono (wp_commitCounts_settled hgu _ _ _) (fun _ v hv => hbeside.trans (.settled hgu hv))
    fun v hv => hbeside.trans (.settled hgu hv)

end Fs

end Aurisys
