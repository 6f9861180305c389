import Aurisys.Fs.AddEntry

/-!
# Removing an entry

`rm` looks for the record of an inode in the blocks of its directory, and makes it a part of the
record in front of it. The first record of a block has none in front of it. Then it is made a part
of itself: it is twice as long as it was, and still there.

The rest of what `rm` does is to give up the inode, and has nothing to do with the blocks of the
directory.

## Main definitions

* `Unlinked` — a record has been made a part of another
* `Dropped` — an inode has been given up, and nothing else has changed
* `RemovesExactly` — the directory lists what it listed, without the entry

## Main results

* `DirOk.wp_unlinkBlocks`, `wp_removeInode`
* `removesExactly_iff`
-/

namespace Aurisys

open Bytes Fallible Path

namespace Fs

/-- What `rm` makes of a block: the record at `x` is a part of the one at `prev`. -/
def folded (m : Bytes) (prev x : ℕ) : Bytes := w16 m (prev + 4) (r16 m (prev + 4) + r16 m (x + 4))

/-- The record at `x` was the first one of the inode in its block. It has been made a part of the
one in front of it, or of the one at the start of the block, which is itself. -/
structure Unlinked (s : Fs) (d ino b p : ℕ) (l₁ : List ℕ) (x : ℕ) (l₂ : List ℕ)
    (t : Fs) : Prop where
  /-- The block is one of the directory, -/
  lt : b < s.dirBlocks d
  /-- and this is where it is. -/
  map : mapFlat (s.inodes d) b = some p
  /-- Its records were these. -/
  chain : Chain (s.disk p) s.geo.bs (l₁ ++ x :: l₂)
  /-- None in front of this one has the inode. -/
  before : ∀ y ∈ l₁, r32 (s.disk p) y ≠ ino
  /-- This one has it. -/
  record : r32 (s.disk p) x = ino
  /-- It has become a part of the record in front. -/
  core : t.core = (s.setDisk p (folded (s.disk p) (l₁.getLast?.getD 0) x)).core

variable {s t u : Fs} {T : ℕ → Bytes} {d b p ino x : ℕ} {l l₁ l₂ : List ℕ}
  {m D : Bytes} {e : Dirent}

/-! ## The loop over the blocks -/

/-- A change at one place of a block that has been read is written back. -/
theorem memcpy_w16 {buf : Bytes} {k q v : ℕ} (hbuf : ∀ a < k, buf a = m a) (hq : q + 2 ≤ k) :
    memcpy m 0 (w16 buf q v) 0 k = w16 m q v := by
  funext a
  by_cases ha : a < k
  · rw [memcpy_zero_of_lt ha, Nat.zero_add, w16, w16, hbuf a ha]
  · rw [memcpy_of_lt_or_ge (by omega), w16_of_lt_or_ge (by omega)]

/-- The record in front is in front. -/
theorem Chain.front_le {bs : ℕ} (h : Chain m bs (l₁ ++ x :: l₂)) : l₁.getLast?.getD 0 ≤ x := by
  rcases List.eq_nil_or_concat l₁ with rfl | ⟨l, y, rfl⟩
  · exact Nat.zero_le x
  · rw [List.concat_eq_append] at h ⊢
    rw [List.getLast?_append, List.getLast?_singleton]
    exact (h.hops.split.1.mem (List.mem_append_right l (List.mem_singleton_self y))).2.1.le.trans
      (h.hops.next_le_of_split (List.mem_append_right l (List.mem_singleton_self y)))

/-- **The loop over the blocks** changes the block in which it finds a record of the inode. -/
theorem DirOk.wp_unlinkBlocks (hd : DirOk s d) (hv : Valid s) {bl : List ℕ}
    (hbl : ∀ b ∈ bl, b < s.dirBlocks d) (hcore : t.core = s.core) :
    wp (unlinkBlocks d ino bl) (fun done u => done = true →
      ∃ b p l₁ x l₂, Unlinked s d ino b p l₁ x l₂ u)
      (fun _ => True) t := by
  have hg := hv.geo
  induction bl generalizing t with
  | nil => exact fun h => absurd h Bool.false_ne_true
  | cons b bl ih =>
    have hlt := hbl b (List.mem_cons_self ..)
    have hgeo := core_geo hcore
    have hinodes := core_inodes hcore
    obtain ⟨p, l, hm, hchain⟩ := hd.blocks b hlt
    rw [unlinkBlocks, wp_bind]
    refine wp_readDirBlock_of (hgeo ▸ hg) (hgeo ▸ hd.isIno)
      (by rw [hgeo, hinodes]; exact hd.flat hv)
      (hinodes ▸ hd.dir) (hinodes ▸ hm) fun s' hcore' hb2 => ?_
    have hcore₁ := hcore'.trans hcore
    have hgeo₁ := core_geo hcore₁
    rw [hgeo, core_disk hcore] at hb2
    -- The buffer has the same records, of the same inodes.
    have hchain₁ := hchain.congr hb2
    have hsame : ∀ y ∈ l, r32 s'.b2 y = r32 (s.disk p) y := by
      intro y hy
      have := hchain.room hy
      exact r32_congr fun i hi => hb2 _ (by omega)
    rw [wp_bind, wp_get, wp_bind, wp_ofOption, hgeo₁]
    cases hfind : l.find? fun y => decide (r32 (s.disk p) y = ino) with
    | none =>
      have hno : ∀ y ∈ l, r32 s'.b2 y ≠ ino := by
        intro y hy
        rw [hsame y hy]
        exact of_decide_eq_false (Bool.not_eq_true _ ▸ List.find?_eq_none.mp hfind y hy)
      rw [unlinkScan_none hchain₁.hops hchain₁.fits hno]
      refine ⟨?_, nofun⟩
      rintro _ ⟨⟩
      exact ih (fun c hc => hbl c (List.mem_cons_of_mem _ hc)) hcore₁
    | some x =>
      obtain ⟨hx, l₁, l₂, rfl, hno⟩ := List.find?_eq_some_iff_append.mp hfind
      have hrec : r32 (s.disk p) x = ino := of_decide_eq_true hx
      have hbefore : ∀ y ∈ l₁, r32 (s.disk p) y ≠ ino := by
        intro y hy
        simpa using hno y hy
      have hxmem : x ∈ l₁ ++ x :: l₂ := List.mem_append_right l₁ (List.mem_cons_self ..)
      have hroom := hchain.room hxmem
      have hfront := hchain.front_le
      rw [unlinkScan_some hchain₁.hops hchain₁.fits (fun y hy => by
        rw [hsame y (List.mem_append_left _ hy)]
        exact hbefore y hy) ((hsame x hxmem).trans hrec) (by omega)]
      refine ⟨?_, nofun⟩
      rintro _ ⟨⟩
      dsimp only
      rw [wp_bind, wp_setWriteB2, wp_pure]
      refine ⟨fun _ _ => ⟨b, p, l₁, x, l₂, hlt, hm, hchain, hbefore, hrec, ?_⟩, fun _ => trivial⟩
      generalize hprev : l₁.getLast?.getD 0 = prev at hfront
      have hlens : r16 s'.b2 (prev + 4) + r16 s'.b2 (x + 4) =
          r16 (s.disk p) (prev + 4) + r16 (s.disk p) (x + 4) := by
        rw [r16_congr fun i hi => hb2 (prev + 4 + i) (by omega),
          r16_congr fun i hi => hb2 (x + 4 + i) (by omega)]
      rw [putBlock_eq]
      change s'.core.setDisk p (memcpy (s'.disk p) 0 _ 0 s'.geo.bs) = _
      rw [hcore₁, core_disk hcore₁, hgeo₁, hlens, memcpy_w16 hb2 (by omega)]
      rfl

/-! ## The inode is given up -/

/-- The images differ in the number of links at most. -/
def SameButLinks (a b : Bytes) : Prop := ∀ j < 128, j ≠ 0x1A → j ≠ 0x1B → a j = b j

namespace SameButLinks

variable {a a' a'' : Bytes}

theorem of_same (h : Same a a') : SameButLinks a a' := fun j hj _ _ => h j hj

theorem trans (h : SameButLinks a a') (h' : SameButLinks a' a'') : SameButLinks a a'' :=
  fun j hj h₁ h₂ => (h j hj h₁ h₂).trans (h' j hj h₁ h₂)

theorem sameMap (h : SameButLinks a a') : SameMap a a' :=
  fun j hj => h j (by omega) (by omega) (by omega)

theorem inodeSize (h : SameButLinks a a') : inodeSize a = inodeSize a' := by
  have hlow : r32 a 4 = r32 a' 4 := r32_congr fun i hi => h _ (by omega) (by omega) (by omega)
  have hhigh : r32 a 0x6C = r32 a' 0x6C :=
    r32_congr fun i hi => h _ (by omega) (by omega) (by omega)
  rw [Fs.inodeSize, Fs.inodeSize, hlow, hhigh]

end SameButLinks

namespace Cleared

variable (h : Cleared s u) (hg : s.geo.Ok)

include h hg

theorem inodes : u.inodes = s.inodes :=
  inodes_congr h.geo fun _ hi => h.disk _ (hg.slotBlock_ne hi Geometry.Ok.bbb_mem)

theorem live (k : ℕ) : u.Live k ↔ s.Live k := by rw [Live, Live, h.geo, h.disk _ hg.bbb_ne_ibb.symm]

end Cleared

/-- The number of links of an inode has changed, or not. -/
structure Relinked (s : Fs) (d : ℕ) (u : Fs) : Prop where
  geo : u.geo = s.geo
  hint : u.hint = s.hint
  disk : ∀ b, b ≠ s.geo.slotBlock d → u.disk b = s.disk b
  inodes : ∀ k, SameButLinks (u.inodes k) (s.inodes k)

theorem wp_addLink (hg : s.geo.Ok) (hi : s.geo.IsIno d) (by_ : ℤ) :
    wp (addLink d by_) (fun _ u => Relinked s d u) (fun _ => False) s := by
  have hsame := loaded_ino hg hi
  rw [addLink, wp_bind, wp_loadInode hg]
  refine ⟨fun _ => ?_, fun hn => hn hi⟩
  have hcore : (s.loaded d).core = s.core := rfl
  generalize s.loaded d = v at hsame hcore
  have hgeo := core_geo hcore
  rw [wp_bind, wp_modify]
  generalize hw : v.setIno _ = w
  have hcore' : w.core = s.core := by
    rw [← hw]
    exact Eq.trans rfl hcore
  have hgeo' := core_geo hcore'
  have hhint := core_hint hcore'
  rw [wp_storeInode (hgeo' ▸ hg) (hgeo' ▸ hi)]
  refine ⟨hgeo', hhint, fun b hb => ?_, fun k => ?_⟩
  · rw [stored_disk w d (hgeo'.symm ▸ hb), core_disk hcore']
  · refine .trans (.of_same (inodes_stored (hgeo' ▸ hg) (hgeo' ▸ hi) k)) ?_
    by_cases hk : k = d
    · rw [hk, Function.update_self, ← hw]
      intro j hj h₁ h₂
      exact (w16_of_lt_or_ge (by omega)).trans (hsame j hj)
    · rw [Function.update_of_ne hk, core_inodes hcore']
      exact .of_same (.refl _)

theorem wp_leaveParent (hg : s.geo.Ok) (hi : s.geo.IsIno d) (isDir : Bool) :
    wp (leaveParent d isDir) (fun _ u => Relinked s d u) (fun _ => False) s := by
  rw [leaveParent, wp_ite]
  exact ⟨fun _ => wp_addLink hg hi (-1), fun _ => ⟨rfl, rfl, fun _ _ => rfl,
    fun _ => .of_same (.refl _)⟩⟩

theorem erased_disk (s : Fs) (ino : ℕ) (hb : b ≠ s.geo.ibb) (hb' : b ≠ s.geo.slotBlock ino) :
    (s.erased ino).disk b = s.disk b :=
  (Function.update_of_ne hb' _ _).trans (Function.update_of_ne hb _ _)

section Erased

variable (hg : s.geo.Ok) (hi : s.geo.IsIno ino)

include hg hi

/-- The bit of the inode is clear. -/
theorem erased_ibb : (s.erased ino).disk s.geo.ibb = (s.disk s.geo.ibb).clearBit (ino - 1) := by
  have hle := hg.inodes.2
  have hmem := hi
  have hback := memcpy_back (b := s.b1) (d := s.disk s.geo.ibb) (k := s.geo.bs)
    (fun m => m.clearBits (ino - 1) 1) (fun _ _ _ => clearBits_congr (ino - 1) 1)
    fun _ _ => clearBits_of_ge (by have := hmem.1; have := hmem.2; omega)
  simp only [clearBits_one] at hback
  rw [← hback]
  exact (Function.update_of_ne (hg.slotBlock_ne hi Geometry.Ok.ibb_mem).symm _ _).trans
    (Function.update_self _ _ _)

theorem live_erased {k : ℕ} (hk : 0 < k) : (s.erased ino).Live k ↔ k ≠ ino ∧ s.Live k := by
  have hpos := hi.1
  have hgeo : (s.erased ino).geo = s.geo := rfl
  rw [Live, Live, hgeo, erased_ibb hg hi, bit_clearBit, Bool.and_eq_true, Bool.not_eq_true',
    decide_eq_false_iff_not]
  refine and_congr_left fun _ => not_congr ?_
  omega

/-- Its slot is filled with zeroes, and the others are as they were. -/
theorem inodes_erased (k : ℕ) :
    Same ((s.erased ino).inodes k) (Function.update s.inodes ino (fun _ => 0) k) := by
  have hoff := hg.slotOff_le ino
  -- First the bitmap is written, and that is not where the table is.
  let bits := (memcpy s.b1 0 (s.disk s.geo.ibb) 0 s.geo.bs).clearBit (ino - 1)
  let s₁ := (s.setB1 bits).putBlock s.geo.ibb bits
  have hinodes : s₁.inodes = s.inodes :=
    inodes_of_ne _ fun _ hi' => hg.slotBlock_ne hi' Geometry.Ok.ibb_mem
  let d := memcpy (s₁.disk (s.geo.slotBlock ino)) 0
    (memset (memcpy s₁.b1 0 (s₁.disk (s.geo.slotBlock ino)) 0 s.geo.bs) (s.geo.slotOff ino) 0
      s.geo.inodeSize)
    0 s.geo.bs
  have hbyte : ∀ a, d a =
      memset (s₁.disk (s.geo.slotBlock ino)) (s.geo.slotOff ino) 0 s.geo.inodeSize a := by
    have hback := memcpy_back (b := s₁.b1) (d := s₁.disk (s.geo.slotBlock ino)) (k := s.geo.bs)
      (fun m => memset m (s.geo.slotOff ino) 0 s.geo.inodeSize)
      (fun m m' a h => by simp only [memset, h]) fun m a ha => memset_of_lt_or_ge (by omega)
    exact fun a => congrFun hback a
  have hstore : Same ((s₁.setDisk (s.geo.slotBlock ino) d).inodes k)
      (Function.update s₁.inodes ino (fun _ => 0) k) :=
    inodes_store (s := s₁) hg hi
      (fun j hj => (hbyte _).trans (if_pos ⟨Nat.le_add_right _ _, Nat.add_lt_add_left hj _⟩))
      (fun a ha => (hbyte a).trans (memset_of_lt_or_ge ha)) k
  rw [hinodes] at hstore
  exact hstore

end Erased

/-- The inode has been given up, with its blocks. The others are as they were, up to the number of
links. -/
structure Dropped (t : Fs) (ino : ℕ) (u : Fs) : Prop where
  geo : u.geo = t.geo
  /-- The inode is in use no more. -/
  live : ∀ k, 0 < k → (u.Live k ↔ k ≠ ino ∧ t.Live k)
  valid : Valid u
  /-- What is not metadata is as it was. -/
  disk : ∀ b, ¬t.geo.IsMeta b → u.disk b = t.disk b
  /-- Of the others only the number of links may differ. -/
  inodes : ∀ k, k ≠ ino → SameButLinks (u.inodes k) (t.inodes k)

/-- The extents have been given back, the parent has a link less, and the inode is erased and
counted. -/
theorem Dropped.of_settled {v w : Fs} (hv : Valid t) (hi : t.geo.IsIno ino) (hid : t.geo.IsIno d)
    (hheld : Held v (Function.update t.table ino fun _ => 0) Nothing) (hc : Cleared t v)
    (hr : Relinked v d w)
    (hu : Settled (w.erased ino) u) : Dropped t ino u := by
  have hg := hv.geo
  have hgeo : w.geo = t.geo := hr.geo.trans hc.geo
  have hgw : w.geo.Ok := hgeo.symm ▸ hg
  have hiw : w.geo.IsIno ino := hgeo.symm ▸ hi
  have hslot : ∀ b ∈ t.geo.singles, b ≠ v.geo.slotBlock d := by
    intro b hb
    rw [hc.geo]
    exact (hg.slotBlock_ne hid hb).symm
  have hlive : ∀ k, 0 < k → (u.Live k ↔ k ≠ ino ∧ t.Live k) := by
    intro k hk
    rw [hu.live hgw, live_erased hgw hiw hk, ← hc.live hg, Live, Live, hr.geo, hc.geo,
      hr.disk _ (hslot _ Geometry.Ok.ibb_mem)]
  have hinodes : ∀ k, k ≠ ino → SameButLinks (u.inodes k) (t.inodes k) := by
    intro k hk
    have herased := inodes_erased hgw hiw k
    rw [Function.update_of_ne hk] at herased
    rw [hu.inodes hgw, ← hc.inodes hg]
    exact (SameButLinks.of_same herased).trans (hr.inodes k)
  refine ⟨hu.geo.trans hgeo, hlive, ?_, fun b hb => ?_, hinodes⟩
  · have hbbb : (w.erased ino).disk v.geo.bbb = v.disk v.geo.bbb := by
      rw [hc.geo, erased_disk w ino (hgeo.symm ▸ hg.bbb_ne_ibb)
        (hgeo.symm ▸ (hg.slotBlock_ne hi Geometry.Ok.bbb_mem).symm)]
      exact hr.disk _ (hslot _ Geometry.Ok.bbb_mem)
    refine (hu.held (hheld.frame hr.geo hr.hint hbbb)).congr fun k => ?_
    by_cases hk : k = ino
    · have hdead : ¬u.Live ino := fun hl => ((hlive ino hi.1).mp hl).1 rfl
      rw [hk, Function.update_self, table, if_neg hdead]
      exact .refl _
    · rw [Function.update_of_ne hk, table, table]
      rcases Nat.eq_zero_or_pos k with rfl | hpos
      · rw [inodes_zero, inodes_zero, ite_self, ite_self]
        exact .refl _
      · by_cases hl : t.Live k
        · rw [if_pos hl, if_pos ((hlive k hpos).mpr ⟨hk, hl⟩)]
          exact (hinodes k hk).sameMap
        · rw [if_neg hl, if_neg fun hn => hl ((hlive k hpos).mp hn).2]
          exact .refl _
  · rw [hu.disk_of_not_meta (show ¬w.geo.IsMeta b from hgeo.symm ▸ hb),
      erased_disk w ino (hgeo.symm ▸ (ne_of_not_meta hb Geometry.Ok.ibb_mem).symm)
        (hgeo.symm ▸ fun he => hb (he ▸ hg.slotBlock_meta hi)),
      hr.disk b (hc.geo.symm ▸ fun he => hb (he ▸ hg.slotBlock_meta hid)),
      hc.disk b (ne_of_not_meta hb Geometry.Ok.bbb_mem).symm]

/-- **The end of `rm`** gives up the inode, if nothing goes wrong. -/
theorem wp_removeInode (hv : Valid t) (hi : t.geo.IsIno ino) (hl : t.Live ino) (hid : t.geo.IsIno d)
    (hkind : IsFile (t.inodes ino) ∨ IsDir (t.inodes ino)) (isDir : Bool) :
    wp (removeInode d ino isDir) (fun _ u => Dropped t ino u) (fun _ => True) t := by
  have hg := hv.geo
  have hT : t.table ino = t.inodes ino := table_of_live hl
  have hflat : Flat t.geo (t.inodes ino) := hT ▸ hv.flat ino
  have hsame := loaded_ino hg hi
  rw [removeInode, wp_bind, wp_loadInode hg]
  refine ⟨fun _ => ?_, fun _ => trivial⟩
  have hcore : (t.loaded ino).core = t.core := rfl
  generalize t.loaded ino = t₁ at hsame hcore
  have hgeo := core_geo hcore
  have hflat₁ : Flat t₁.geo (t.inodes ino) := hgeo.symm ▸ hflat
  rw [wp_bind, wp_get, wp_bind, wp_ofOption, inlineExtents_eq hflat₁ hkind hsame.sameMap]
  refine ⟨?_, nofun⟩
  rintro _ ⟨⟩
  have hblank : Held t (Function.update t.table ino fun _ => 0) fun b =>
    ∃ i, Covers (t.table ino) i b :=
    Held.blank hv hi.1.ne' (by rw [table, inodes_zero, ite_self])
  have hspares : Spares t₁.geo (fun b => ∃ i, Covers (t.table ino) i b)
      ((List.range (r16 (t.inodes ino) 0x2A)).map (extentAt (t.inodes ino))) := by
    rw [hgeo]
    refine spares_extents hflat (fun i b hc => ⟨i, hT ▸ hc⟩) fun i j b hc hc' => ?_
    exact (Prod.mk.inj (hv.own.unique (ino, i) (ino, j) b (hT ▸ hc) (hT ▸ hc'))).2
  rw [wp_bind]
  refine wp_mono (wp_freeExtents (hblank.of_core hcore) hspares) ?_ fun _ => False.elim
  rintro freed v ⟨hc, hheld⟩
  have hc : Cleared t v :=
    ⟨hc.geo.trans hgeo, hc.stack.trans (of_core Fs.stack (fun _ => rfl) hcore), fun b hb => by
      rw [hc.disk b (hgeo.symm ▸ hb), core_disk hcore]⟩
  have hgv : v.geo.Ok := hc.geo.symm ▸ hg
  rw [wp_bind]
  refine wp_mono (wp_leaveParent hgv (hc.geo.symm ▸ hid) isDir) ?_ fun _ => False.elim
  rintro ⟨⟩ w hr
  have hgw : w.geo.Ok := hr.geo.symm ▸ hgv
  have hgeow : w.geo = t.geo := hr.geo.trans hc.geo
  rw [wp_bind]
  refine wp_eraseInode hgw (hgeow.symm ▸ hi) ?_
  exact wp_settle (s := w.erased ino) hgw (fun u hu => .of_settled hv hi hid hheld hc hr hu)
    fun _ _ _ => trivial

/-- What is left of a directory whose inode is still there. -/
theorem Dropped.mapFlat (h : Dropped t ino u) (hd : d ≠ ino)
    (hflat : Flat t.geo (t.inodes d)) (b : ℕ) :
    mapFlat (u.inodes d) b = mapFlat (t.inodes d) b := (h.inodes d hd).sameMap.mapFlat hflat b

theorem Dropped.dirBlocks (h : Dropped t ino u) (hd : d ≠ ino) : u.dirBlocks d = t.dirBlocks d := by
  rw [Fs.dirBlocks, Fs.dirBlocks, h.geo, (h.inodes d hd).inodeSize]

section Left

variable (h : Dropped t ino u) (hv : Valid t) (hd : d ≠ ino) (hl : t.Live d)

include h hv hd hl

omit hd in
/-- Its blocks are as they were. -/
theorem Dropped.disk_of_map (hm : Fs.mapFlat (t.inodes d) b = some p) : u.disk p = t.disk p :=
  h.disk p (hv.mapFlat_not_meta (table_of_live hl ▸ hm : Fs.mapFlat (t.table d) b = some p))

theorem Dropped.inOrder_iff : InOrder u d ↔ InOrder t d := by
  have hflat : Flat t.geo (t.inodes d) := table_of_live hl ▸ hv.flat d
  rw [InOrder, InOrder, h.dirBlocks hd]
  simp only [h.mapFlat hd hflat, h.geo]
  constructor
  · intro hin b hb
    obtain ⟨p, l, hm, hc⟩ := hin b hb
    exact ⟨p, l, hm, h.disk_of_map hv hl hm ▸ hc⟩
  · intro hin b hb
    obtain ⟨p, l, hm, hc⟩ := hin b hb
    exact ⟨p, l, hm, (h.disk_of_map hv hl hm).symm ▸ hc⟩

theorem Dropped.dirEntries : u.dirEntries d = t.dirEntries d := by
  have hflat : Flat t.geo (t.inodes d) := table_of_live hl ▸ hv.flat d
  rw [Fs.dirEntries, Fs.dirEntries, h.dirBlocks hd]
  congr 1
  funext b
  rw [blockEntries, blockEntries, h.mapFlat hd hflat, h.geo]
  cases hm : Fs.mapFlat (t.inodes d) b with
  | none => rfl
  | some p =>
    show dirents (u.disk p) _ _ 0 = dirents (t.disk p) _ _ 0
    rw [h.disk_of_map hv hl hm]

end Left

/-- The directory is in order as before. -/
theorem Dropped.dirOk (h : Dropped t ino u) (hv : Valid t) (hd : d ≠ ino) (hok : DirOk t d) :
    DirOk u d where
  isIno := h.geo ▸ hok.isIno
  live := (h.live d hok.isIno.1).mpr ⟨hd, hok.live⟩
  dir := (h.inodes d hd).sameMap.isDir.mpr hok.dir
  magic := (h.inodes d hd).sameMap.magic.trans hok.magic
  size := by rw [(h.inodes d hd).inodeSize, h.dirBlocks hd, h.geo, hok.size]
  blocks := (h.inOrder_iff hv hd hok.live).mpr hok.blocks
  behind b hb := by
    rw [h.mapFlat hd (hok.flat hv)]
    exact hok.behind b (h.dirBlocks hd ▸ hb)

/-! ## The call -/

/-- **The entry goes from the parent**, if nothing goes wrong. -/
theorem DirOk.wp_unlink (hd : DirOk s d) (hv : Valid s) (hcore : t.core = s.core) :
    wp (unlink d ino) (fun _ u => ∃ b p l₁ x l₂, Unlinked s d ino b p l₁ x l₂ u)
      (fun _ => True) t := by
  have hg : t.geo.Ok := core_geo hcore ▸ hv.geo
  have hi : t.geo.IsIno d := core_geo hcore ▸ hd.isIno
  have hsame := loaded_ino hg hi
  rw [unlink, wp_bind, wp_loadInode hg]
  refine ⟨fun _ => ?_, fun _ => trivial⟩
  have hcore₁ : (t.loaded d).core = s.core := Eq.trans rfl hcore
  generalize t.loaded d = t₁ at hsame hcore₁
  have hlist : t₁.geo.blocksOf (inodeSize t₁.ino) = s.dirBlocks d := by
    rw [dirBlocks, hsame.inodeSize, core_geo hcore₁, core_inodes hcore]
  rw [wp_bind, wp_get, wp_bind, wp_guard, hlist]
  refine ⟨fun _ => ?_, fun _ => trivial⟩
  rw [wp_bind]
  refine wp_mono (hd.wp_unlinkBlocks hv (fun _ => List.mem_range.mp) hcore₁) ?_ fun _ _ => trivial
  intro done u hu
  rw [wp_guard]
  exact ⟨hu, fun _ => trivial⟩

/-- The block of a record that has been made a part of another. -/
theorem Unlinked.rewritten (h : Unlinked s d ino b p l₁ x l₂ t) (hd : DirOk s d) (hv : Valid s) :
    Rewritten s d b p (folded (s.disk p) (l₁.getLast?.getD 0) x) t := hd.rewritten hv h.map h.core

/-- **What `rm` does** when it says that it has. -/
theorem wp_rm (hv : Valid s) (hd : DirOk s d) (hl : s.Live ino) {base : Option Str} {path abs : Str}
    (habs : resolve path base 256 = some abs)
    (hparent : s.descend (copied (parentPath abs) s.stack) kRootIno = some d)
    (hino : s.descend (copied abs s.stack) kRootIno = some ino) :
    wp (rm base path) (fun _ u => s.geo.IsIno ino ∧
      ∃ t b p l₁ x l₂, Unlinked s d ino b p l₁ x l₂ t ∧ Dropped t ino u) (fun _ => True) s := by
  have hg := hv.geo
  rw [rm, wp_bind]
  refine wp_mono (wp_locate hg (.refl s) base path) ?_ fun _ _ => trivial
  rintro ⟨abs', name, parent⟩ u₁ ⟨h₁, habs', -, -, hparent'⟩
  obtain rfl : abs = abs' := Option.some.inj (habs.symm.trans habs')
  obtain rfl : d = parent := Option.some.inj (hparent.symm.trans hparent')
  rw [wp_bind]
  refine wp_mono (wp_lookupAbs_still hg h₁ abs) ?_ fun _ _ => trivial
  rintro c u₂ ⟨h₂, hc⟩
  obtain rfl : ino = c := Option.some.inj (hino.symm.trans hc)
  rw [wp_bind]
  refine (reads_statDir d).wp (fun _ u₃ h₃ => ?_) fun _ _ => trivial
  have hcore₃ := h₃.trans h₂.core
  have hg₃ : u₃.geo.Ok := core_geo hcore₃ ▸ hg
  rw [wp_bind, wp_loadInode hg₃]
  refine ⟨fun hi₃ => ?_, fun _ => trivial⟩
  have hi : s.geo.IsIno ino := core_geo hcore₃ ▸ hi₃
  have hmap := (loaded_ino hg₃ hi₃).sameMap
  rw [core_inodes hcore₃] at hmap
  have hcore₄ : (u₃.loaded ino).core = s.core := Eq.trans rfl hcore₃
  generalize u₃.loaded ino = u₄ at hmap hcore₄
  rw [wp_bind, wp_get, wp_bind, wp_guard]
  refine ⟨fun hkind => ?_, fun _ => trivial⟩
  have hkind : IsFile (s.inodes ino) ∨ IsDir (s.inodes ino) :=
    hkind.symm.imp hmap.isFile.mp fun h => hmap.isDir.mp (of_decide_eq_true h)
  rw [wp_bind]
  refine (reads_checkEmpty ino _).wp (fun _ u₅ h₅ => ?_) fun _ _ => trivial
  rw [wp_bind]
  refine wp_mono (hd.wp_unlink hv (h₅.trans hcore₄)) ?_ fun _ _ => trivial
  rintro ⟨⟩ t ⟨b, p, l₁, x, l₂, hun⟩
  have hrw := hun.rewritten hd hv
  have hi' : t.geo.IsIno ino := hrw.geo.symm ▸ hi
  refine wp_mono (wp_removeInode hrw.valid hi' ((hrw.live ino).mpr hl) (hrw.geo.symm ▸ hd.isIno)
    (hrw.inodes.symm ▸ hkind) _) (fun _ u hu => ?_) fun _ => id
  exact ⟨hi, t, b, p, l₁, x, l₂, hun, hu⟩

/-! ## What is listed then -/

/-- A directory that is well formed: it is in order, a record with an inode has a name, no two
entries have the same name, and their inodes are in use. -/
structure Tidy (s : Fs) (d : ℕ) : Prop where
  /-- The directory is in order. -/
  ok : DirOk s d
  /-- A record with an inode has a name. -/
  named : ∀ b p l, mapFlat (s.inodes d) b = some p → Chain (s.disk p) s.geo.bs l →
    ∀ x ∈ l, r32 (s.disk p) x ≠ 0 → 0 < (s.disk p (x + 6)).toNat
  /-- No two entries have the same name. -/
  names : ((s.dirEntries d).map Dirent.name).Nodup
  /-- What the entries lead to is in use. -/
  live : ∀ e ∈ s.dirEntries d, s.Live e.ino

/-- No other entry of the directory is for the inode, and it is not that of the directory. -/
def OnlyName (s : Fs) (d : ℕ) (e : Dirent) : Prop :=
  e.ino ≠ d ∧ ∀ e' ∈ s.dirEntries d, e'.ino = e.ino → e' = e

/-- `rm` has said that it has removed what the path leads to, and that is the entry. -/
structure Removed (s : Fs) (base : Option Str) (path : Str) (d : ℕ) (e : Dirent)
    (u : Fs) : Prop where
  /-- The call succeeds. -/
  run : exec (rm base path) s = (some (), u)
  /-- The path led to the entry, in that directory. -/
  found : ∃ abs, resolve path base 256 = some abs ∧
    s.descend (copied (parentPath abs) s.stack) kRootIno = some d ∧
    s.descend (copied abs s.stack) kRootIno = some e.ino

/-- `list_dir` yields what it yielded, in the same order and without the entry, and the blocks are
in order. -/
def RemovesExactly (s : Fs) (d : ℕ) (e : Dirent) (u : Fs) : Prop :=
  (∃ es, s.entries d = some es ∧ u.entries d = some (es.erase e)) ∧ InOrder u d

/-- The record of the inode is the first one of its block. -/
def AtStart (s : Fs) (d ino : ℕ) : Prop :=
  ∃ b < s.dirBlocks d, ((mapFlat (s.inodes d) b).map fun p => r32 (s.disk p) 0) = some ino

instance (s : Fs) (d : ℕ) (e : Dirent) : Decidable (OnlyName s d e) :=
  inferInstanceAs (Decidable (_ ∧ _))

instance (s : Fs) (d ino : ℕ) : Decidable (AtStart s d ino) :=
  inferInstanceAs (Decidable (∃ _ < _, _ = some ino))

/-- A block has a record, and the first one is at its start. -/
theorem Chain.exists_first {bs : ℕ} (h : Chain m bs l) (hbs : 0 < bs) : ∃ l', l = 0 :: l' := by
  cases l with
  | nil => exact absurd (Hops.nil_iff.mp h.hops) hbs.ne
  | cons y l => exact ⟨l, by rw [← (Hops.cons_iff.mp h.hops).1]⟩

namespace Tidy

theorem nodup (h : Tidy s d) : (s.dirEntries d).Nodup := h.names.of_map

/-- A record of the inode is the one of the entry. -/
theorem direntAt_of_ino (h : Tidy s d) (honly : OnlyName s d e) (hpos : e.ino ≠ 0)
    (hb : b < s.dirBlocks d)
    (hm : mapFlat (s.inodes d) b = some p) (hc : Chain (s.disk p) s.geo.bs l) (hx : x ∈ l)
    (hino : r32 (s.disk p) x = e.ino) : direntAt (s.disk p) x = some e := by
  have hne : r32 (s.disk p) x ≠ 0 := hino ▸ hpos
  have hsome : direntAt (s.disk p) x = some _ := if_pos ⟨hne, h.named b p l hm hc x hx hne⟩
  rw [hsome, honly.2 _ (mem_dirEntries hb hm hc hx hsome).2 hino]

end Tidy

namespace Unlinked

variable (h : Unlinked s d e.ino b p l₁ x l₂ t) (hv : Valid s) (hd : Tidy s d)
  (honly : OnlyName s d e)
  (hpos : e.ino ≠ 0)

include h

/-- What is in front of the record starts at the beginning of the block. -/
theorem head_eq {y : ℕ} {l : List ℕ} (hl : l₁ = y :: l) : y = 0 := by
  have hhops := h.chain.hops
  rw [hl] at hhops
  exact (Hops.cons_iff.mp hhops).1.symm

include hv hd honly hpos in
/-- **If a block starts with a record of the inode**, that is the one that was found. -/
theorem atStart_iff : AtStart s d e.ino ↔ l₁ = [] := by
  have hbs := hv.geo.bs_pos
  have hx : x ∈ l₁ ++ x :: l₂ := List.mem_append_right l₁ (List.mem_cons_self ..)
  have hent := hd.direntAt_of_ino honly hpos h.lt h.map h.chain hx h.record
  constructor
  · rintro ⟨c, hc, hfirst⟩
    obtain ⟨q, hm, hrec⟩ := Option.map_eq_some_iff.mp hfirst
    obtain ⟨q', l, hm', hchain⟩ := hd.ok.blocks c hc
    obtain rfl : q = q' := Option.some.inj (hm.symm.trans hm')
    obtain ⟨l, rfl⟩ := hchain.exists_first hbs
    have hent' := hd.direntAt_of_ino honly hpos hc hm hchain (List.mem_cons_self ..) hrec
    -- The entry is in one block, and the record is the first of its inode there.
    obtain rfl := block_unique hd.nodup h.lt hc (mem_dirEntries h.lt h.map h.chain hx hent).1
      (mem_dirEntries hc hm hchain (List.mem_cons_self ..) hent').1
    obtain rfl : p = q := Option.some.inj (h.map.symm.trans hm)
    cases l₁ with
    | nil => rfl
    | cons y l₁ =>
      have hy := h.before y (List.mem_cons_self ..)
      rw [h.head_eq rfl] at hy
      exact absurd hrec hy
  · rintro rfl
    have hzero : x = 0 := (Hops.cons_iff.mp h.chain.hops).1.symm
    refine ⟨b, h.lt, ?_⟩
    rw [h.map, Option.map_some, ← hzero, h.record]

include hv hd honly hpos

/-- **Where there is a record in front**, the entry goes and the others stay. -/
theorem erases (hne : l₁ ≠ []) : DirOk t d ∧ t.dirEntries d = (s.dirEntries d).erase e := by
  have hx : x ∈ l₁ ++ x :: l₂ := List.mem_append_right l₁ (List.mem_cons_self ..)
  have hent := hd.direntAt_of_ino honly hpos h.lt h.map h.chain hx h.record
  have hrw := h.rewritten hd.ok hv
  have hbs := hv.geo.bs_le
  obtain ⟨l, y, rfl⟩ := (List.eq_nil_or_concat l₁).resolve_left hne
  rw [List.concat_eq_append] at hrw
  have hlast : (l ++ [y]).getLast?.getD 0 = y := by
    rw [List.getLast?_append, List.getLast?_singleton]; rfl
  have hchain := h.chain
  rw [List.concat_eq_append, List.append_assoc, List.singleton_append] at hchain
  rw [hlast] at hrw
  obtain ⟨hfold, hsame⟩ := hchain.fold (by omega) (rfl : folded (s.disk p) y x = _)
  refine ⟨hrw.dirOk hd.ok (hrw.inOrder hd.ok h.map hfold), ?_⟩
  have hthere : s.blockEntries d b = (l ++ [y]).filterMap (direntAt (s.disk p)) ++
      e :: l₂.filterMap (direntAt (s.disk p)) := by
    rw [blockEntries_of h.map hchain, ← List.singleton_append, ← List.append_assoc,
      List.filterMap_append,
      List.filterMap_cons, hent]
  have hhere : t.blockEntries d b = (l ++ [y]).filterMap (direntAt (s.disk p)) ++
      l₂.filterMap (direntAt (s.disk p)) := by
    rw [hrw.blockEntries h.map hfold, List.filterMap_congr hsame, ← List.filterMap_append,
      List.append_assoc,
      List.singleton_append]
  obtain ⟨ds, es, ht, hs⟩ := flatMap_range_insert h.lt hhere hthere
    fun c hc => (hrw.blockEntries_of_ne hc).symm
  have hnodup := hd.nodup
  rw [dirEntries, hs] at hnodup
  have hnot : e ∉ ds := fun hmem =>
    (List.nodup_cons.mp (List.nodup_middle.mp hnodup)).1 (List.mem_append_left es hmem)
  rw [dirEntries, dirEntries, hrw.dirBlocks, ht, hs, List.erase_append_right _ hnot,
    List.erase_cons_head]

/-- **Where there is none**, the entry stays. -/
theorem stays (hnil : l₁ = []) (hok : DirOk t d) : e ∈ t.dirEntries d := by
  have hx : x ∈ l₁ ++ x :: l₂ := List.mem_append_right l₁ (List.mem_cons_self ..)
  have hent := hd.direntAt_of_ino honly hpos h.lt h.map h.chain hx h.record
  have hrw := h.rewritten hd.ok hv
  subst hnil
  obtain rfl : 0 = x := (Hops.cons_iff.mp h.chain.hops).1
  have hlt : b < t.dirBlocks d := hrw.dirBlocks.symm ▸ h.lt
  obtain ⟨q, l, hm, hchain⟩ := hok.blocks b hlt
  obtain rfl : p = q := Option.some.inj (h.map.symm.trans (hrw.inodes ▸ hm))
  obtain ⟨l', rfl⟩ := hchain.exists_first (hrw.geo.symm ▸ hv.geo.bs_pos)
  refine (mem_dirEntries hlt hm hchain (List.mem_cons_self ..) ?_).2
  rw [hrw.self, ← hent]
  exact direntAt_w16 _ (.inl rfl)

end Unlinked

/-- **`rm` removes an entry and nothing else** if and only if its record is not the first one of a
block. -/
theorem removesExactly_iff (hv : Valid s) (hd : Tidy s d) {base : Option Str} {path : Str}
    (he : e ∈ s.dirEntries d) (honly : OnlyName s d e) (hrm : Removed s base path d e u) :
    RemovesExactly s d e u ↔ ¬AtStart s d e.ino := by
  obtain ⟨abs, habs, hparent, hino⟩ := hrm.found
  obtain ⟨hi, t, b, p, l₁, x, l₂, hun, hdrop⟩ :=
    wp_of_some (wp_rm hv hd.ok (hd.live e he) habs hparent hino) hrm.run
  have hpos := hi.1.ne'
  have hne : d ≠ e.ino := honly.1.symm
  have hrw := hun.rewritten hd.ok hv
  have hlive : t.Live d := (hrw.live d).mpr hd.ok.live
  rw [hun.atStart_iff hv hd honly hpos, RemovesExactly, hdrop.inOrder_iff hrw.valid hne hlive,
    hd.ok.entries hv]
  have hlists : DirOk t d → u.entries d = some (t.dirEntries d) := by
    intro hok
    rw [(hdrop.dirOk hrw.valid hne hok).entries hdrop.valid, hdrop.dirEntries hrw.valid hne hlive]
  constructor
  · rintro ⟨⟨es, hes, hu⟩, hin⟩ hnil
    have hok := hrw.dirOk hd.ok hin
    have hmem := hun.stays hv hd honly hpos hnil hok
    rw [hlists hok] at hu
    rw [Option.some.inj hu, ← Option.some.inj hes] at hmem
    exact hd.nodup.not_mem_erase hmem
  · intro hnil
    obtain ⟨hok, hents⟩ := hun.erases hv hd honly hpos hnil
    exact ⟨⟨_, rfl, by rw [hlists hok, hents]⟩, hok.blocks⟩

/-- Looking at one list of records for each block is enough. -/
theorem DirOk.named (hd : DirOk s d)
    (h : ∀ b < s.dirBlocks d, ∃ p l, mapFlat (s.inodes d) b = some p ∧
    Chain (s.disk p) s.geo.bs l ∧ ∀ x ∈ l, r32 (s.disk p) x ≠ 0 → 0 < (s.disk p (x + 6)).toNat) :
    ∀ b p l, mapFlat (s.inodes d) b = some p → Chain (s.disk p) s.geo.bs l →
      ∀ x ∈ l, r32 (s.disk p) x ≠ 0 → 0 < (s.disk p (x + 6)).toNat := by
  intro b p l hm hc
  have hb : b < s.dirBlocks d := by
    by_contra hge
    rw [hd.behind b (not_lt.mp hge)] at hm
    exact absurd hm (Option.some_ne_none p).symm
  obtain ⟨q, l', hm', hc', hall⟩ := h b hb
  obtain rfl : p = q := Option.some.inj (hm.symm.trans hm')
  rw [hc.hops.unique hc'.hops]
  exact hall

theorem tidy_filed : Tidy filed kRootIno where
  ok := dirOk_filed
  named := dirOk_filed.named fun b hb => by
    have hn : filed.dirBlocks kRootIno = 1 := by decide +kernel
    obtain rfl : b = 0 := by omega
    exact ⟨7, [0, 12, 24], by decide +kernel, by decide +kernel, by decide +kernel⟩
  names := by decide +kernel
  live := by decide +kernel

/-- The file of the small volume is removed. -/
theorem removesExactly_filed :
    RemovesExactly filed kRootIno ⟨12, [97], 1⟩ (exec (rm none [47, 97]) filed).2 :=
  (removesExactly_iff valid_filed tidy_filed (by decide +kernel) (by decide +kernel)
    ⟨exec_eq (by decide +kernel), [47, 97], by decide +kernel, by decide +kernel,
      by decide +kernel⟩).mpr
    (by decide +kernel)

/-- The blocks of the small volume when the root has two of them: `a` and `b` are in the second
one. -/
def spreadDisk (b : ℕ) : Bytes :=
  if b = 3 then setBits (fun _ => 0) 0 10
  else if b = 4 then setBits (fun _ => 0) 0 13
  else if b = 5 then memcpy (fun _ => 0) 128 (w32 (addExtent (freshDir 1024 7) 1 1 9) 4 2048) 0 128
  else if b = 6 then memcpy (filedDisk 6) 512 (freshFile 0) 0 128
  else if b = 7 then smallDisk 7
  else if b = 9 then putDirent (putDirent (fun _ => 0) 0 12 12 [97] 1) 12 13 1012 [98] 1
  else filedDisk b

/-- A volume on which a block of the root starts with a file. -/
def spread : Fs := { filed with disk := spreadDisk }

theorem valid_spread : Valid spread :=
  Checked.valid (s := spread) (by decide +kernel) smallGeometry_ok

theorem tidy_spread : Tidy spread kRootIno := by
  have hblocks : ∀ b < spread.dirBlocks kRootIno, ∃ p l, mapFlat (spread.inodes kRootIno) b =
    some p ∧
      Chain (spread.disk p) spread.geo.bs l ∧
        ∀ x ∈ l, r32 (spread.disk p) x ≠ 0 → 0 < (spread.disk p (x + 6)).toNat := by
    have hn : spread.dirBlocks kRootIno = 2 := by decide +kernel
    intro b hb
    obtain rfl | rfl : b = 0 ∨ b = 1 := by omega
    · exact ⟨7, [0, 12], by decide +kernel, by decide +kernel, by decide +kernel⟩
    · exact ⟨9, [0, 12], by decide +kernel, by decide +kernel, by decide +kernel⟩
  have hok : DirOk spread kRootIno :=
    { isIno := by decide
      live := by decide +kernel
      dir := by decide +kernel
      magic := by decide +kernel
      size := by decide +kernel
      blocks := fun b hb =>
        have ⟨p, l, hm, hc, _⟩ := hblocks b hb
        ⟨p, l, hm, hc⟩
      behind := fun _ => mapFlat_behind (by decide +kernel) }
  exact ⟨hok, hok.named hblocks, by decide +kernel, by decide +kernel⟩

/-- When `a` is removed, its record is made as long as both: it is still listed, and `b` is not any
more. -/
theorem rm_hides : Valid spread ∧ Tidy spread kRootIno ∧
    (⟨12, [97], 1⟩ : Dirent) ∈ spread.dirEntries kRootIno ∧
    OnlyName spread kRootIno ⟨12, [97], 1⟩ ∧
    Removed spread none [47, 97] kRootIno ⟨12, [97], 1⟩ (exec (rm none [47, 97]) spread).2 ∧
    ¬RemovesExactly spread kRootIno ⟨12, [97], 1⟩ (exec (rm none [47, 97]) spread).2 := by
  refine ⟨valid_spread, tidy_spread, by decide +kernel, by decide +kernel,
    ⟨exec_eq (by decide +kernel), [47, 97], by decide +kernel, by decide +kernel,
      by decide +kernel⟩, ?_⟩
  rintro ⟨⟨es, hes, hu⟩, -⟩
  have hbefore : spread.entries kRootIno =
      some [⟨2, [46], 2⟩, ⟨2, [46, 46], 2⟩, ⟨12, [97], 1⟩, ⟨13, [98], 1⟩] := by decide +kernel
  have hafter : (exec (rm none [47, 97]) spread).2.entries kRootIno =
      some [⟨2, [46], 2⟩, ⟨2, [46, 46], 2⟩, ⟨12, [97], 1⟩] := by decide +kernel
  obtain rfl := Option.some.inj (hbefore.symm.trans hes)
  rw [hafter] at hu
  exact absurd hu (by decide +kernel)

end Fs

end Aurisys
