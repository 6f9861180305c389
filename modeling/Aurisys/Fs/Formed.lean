import Aurisys.Fs.AddEntry
import Mathlib.Data.Finset.Card

/-!
# An entry more, whatever the layout

`dir_add_entry` finds the blocks of a directory with `map_lblock`, which goes down trees of extents
and along chains of pointers. Where a block has room, the layout does not matter. Where none has,
the new block goes into the image of the inode as another extent, whatever the image holds. It is
found there only if the image holds extents, without an index above them, and if the high half of
the next slot is zero. Otherwise a block of the directory is not found any more, and then nothing of
it is listed.

## Main definitions

* `Formed` — a directory in order, with its blocks wherever its inode leads to
* `TakesExtent` — another extent in the image of the inode is found
* `AddsOne` — one entry more, and the directory is in order

## Main results

* `Formed.extended`, `Formed.enlarged`, `Formed.lost`
* `dirAddEntry_addsOne_iff`
-/

namespace Aurisys

open Bytes Fallible

namespace Fs

/-- What the way to the blocks of a directory may lead through is the same: the blocks in use that
hold no metadata and are not the directory's own. -/
structure SameRoute (s : Fs) (own : ℕ → Prop) (t : Fs) : Prop where
  geo : t.geo = s.geo
  /-- Such a block is as it was. -/
  disk : ∀ c, s.Used c → ¬s.geo.IsMeta c → ¬own c → t.disk c = s.disk c

/-- A block of the directory. -/
def InDir (s : Fs) (d : ℕ) (place : ℕ → ℕ) (c : ℕ) : Prop := ∃ b < s.dirBlocks d, place b = c

/-- **A directory in order**, in any layout. Its inode leads to as many blocks as its size says and
to no more, whatever is in the buffers, the metadata, the free blocks and the blocks of the
directory. These are different blocks in use, and the records fill each of them. Of the other files
nothing is said. -/
structure Formed (s : Fs) (d : ℕ) (place : ℕ → ℕ) : Prop where
  /-- The volume is laid out right. -/
  geo : s.geo.Ok
  /-- The search for free blocks does not wrap. -/
  hint : s.hint + s.geo.blocks ≤ 2 ^ 32
  /-- The metadata are in use. -/
  kept : ∀ c, s.geo.IsMeta c → s.Used c
  /-- The number is that of an inode, -/
  isIno : s.geo.IsIno d
  /-- and of a directory. -/
  dir : IsDir (s.inodes d)
  /-- It has as many blocks as its size says. -/
  size : inodeSize (s.inodes d) = s.dirBlocks d * s.geo.bs
  /-- Where `map_lblock` finds the blocks. -/
  found : ∀ t img b, s.SameRoute (s.InDir d place) t → Same img (s.inodes d) →
    t.blockOf img b = if b < s.dirBlocks d then some (place b) else none
  /-- They are in use, and no metadata. -/
  own : ∀ b < s.dirBlocks d, place b < s.geo.blocks ∧ s.Used (place b) ∧ ¬s.geo.IsMeta (place b)
  /-- No two are in one place. -/
  apart : ∀ b < s.dirBlocks d, ∀ c < s.dirBlocks d, place b = place c → b = c
  /-- The records fill each of them. -/
  chains : ∀ b < s.dirBlocks d, ∃ l, Chain (s.disk (place b)) s.geo.bs l

/-- The entries of the blocks one after the other. -/
def placedEntries (s : Fs) (d : ℕ) (place : ℕ → ℕ) : List Dirent :=
  (List.range (s.dirBlocks d)).flatMap fun b => dirents (s.disk (place b)) s.geo.bs s.geo.bs 0

/-- **Another extent in the image is found**: there are extents in it and no index, and the high
half of the next one, which is not written, is zero. -/
structure TakesExtent (img : Bytes) : Prop where
  /-- The image holds extents and not pointers, -/
  flagged : r32 img 0x20 &&& kExtentsFl ≠ 0
  /-- as its header says, -/
  magic : r16 img 0x28 = kExtMagic
  /-- with no index above them. -/
  depth : r16 img 0x2E = 0
  /-- The half that is not written is zero. -/
  high : r16 img (0x34 + r16 img 0x2A * 12 + 6) = 0

/-- The directory lists one entry more, and it is in order. Where the names lead to the directory,
one name more leads to the inode. -/
structure AddsOne (s : Fs) (d : ℕ) (e : Dirent) (u : Fs) : Prop where
  /-- The entries are those of before and this one. -/
  entries : ∃ old new, s.entries d = some old ∧ u.entries d = some new ∧ new.Perm (e :: old)
  /-- The directory is in order. -/
  formed : ∃ place, Formed u d place
  /-- The name leads to the inode. -/
  lookup : ∀ names k, (exec (lookupFrom names k) u).1 = some d →
    (exec (lookupFrom (names ++ [e.name]) k) u).1 = some e.ino

variable {s t u : Fs} {d b p n ino type : ℕ} {place : ℕ → ℕ} {l : List ℕ} {name : Str} {e : Dirent}
  {img img' D : Bytes} {own : ℕ → Prop}

/-! ## What is listed -/

/-- Where the blocks are there, all their entries are listed. -/
theorem listedBlocks_of {x : ℕ → Bytes} {bl : List ℕ}
    (h : ∀ b ∈ bl, s.dirBlock d b = some (x b)) (k : ℕ)
    (acc : List Dirent) : ∃ k', s.listedBlocks collect d bl k acc =
      some (k', acc ++ bl.flatMap fun b => dirents (x b) s.geo.bs s.geo.bs 0) := by
  induction bl generalizing k acc with
  | nil => exact ⟨k, by rw [listedBlocks, List.flatMap_nil, List.append_nil]⟩
  | cons b bl ih =>
    rw [listedBlocks, h b (List.mem_cons_self ..), Option.bind_some, callAll_collect]
    obtain ⟨k', hk'⟩ := ih (fun b hb => h b (List.mem_cons_of_mem _ hb))
      (k + (dirents (x b) s.geo.bs s.geo.bs 0).length) (acc ++ dirents (x b) s.geo.bs s.geo.bs 0)
    exact ⟨k', hk'.trans (by rw [List.flatMap_cons, List.append_assoc])⟩

/-- Where one is not, nothing is listed. -/
theorem listedBlocks_none {bl : List ℕ} (hb : b ∈ bl) (h : s.dirBlock d b = none) (k : ℕ)
    (acc : List Dirent) : s.listedBlocks collect d bl k acc = none := by
  induction bl generalizing k acc with
  | nil => exact absurd hb List.not_mem_nil
  | cons c bl ih =>
    rw [listedBlocks]
    rcases List.mem_cons.mp hb with rfl | hb
    · rw [h, Option.bind_none]
    · cases hc : s.dirBlock d c with
      | none => rfl
      | some x =>
        rw [Option.bind_some, callAll_collect]
        exact ih hb _ _

/-- **A directory is not listed** when one of its blocks is not found. -/
theorem entries_none (hg : s.geo.Ok) (hi : s.geo.IsIno d) (hb : b < s.dirBlocks d)
    (h : ∀ q, s.blockOf (s.loaded d).ino b = some q → s.geo.blocks ≤ q) : s.entries d = none := by
  have hnone : s.dirBlock d b = none := by
    rw [dirBlock, blockBytes]
    cases hq : s.blockOf (s.loaded d).ino b with
    | none => rfl
    | some q => rw [Option.bind_some, if_neg (by have := h q hq; omega)]; rfl
  have hsize : s.geo.blocksOf (inodeSize (s.loaded d).ino) = s.dirBlocks d := by
    rw [dirBlocks, (loaded_ino hg hi).inodeSize]
  rw [(Still.refl s).entries_eq hg, listed, hsize]
  split
  · rw [listedBlocks_none (List.mem_range.mpr hb) hnone]
    rfl
  · rfl

namespace Formed

variable (hf : Formed s d place)

include hf

/-- The inode of the directory, loaded into any buffers. -/
theorem blockOf_loaded (hcore : t.core = s.core) (b : ℕ) :
    t.blockOf (t.loaded d).ino b = (if b < s.dirBlocks d then some (place b) else none) ∧
      (t.loaded d).blockOf (t.loaded d).ino b = if b < s.dirBlocks d then some (place b)
      else none := by
  have hsame := loaded_ino (core_geo hcore ▸ hf.geo) (core_geo hcore ▸ hf.isIno)
  rw [core_inodes hcore] at hsame
  have hway : ∀ t' : Fs, t'.core = s.core → s.SameRoute (s.InDir d place) t' :=
    fun t' h => ⟨core_geo h, fun c _ _ _ => by rw [core_disk h]⟩
  exact ⟨hf.found t _ b (hway t hcore) hsame, hf.found _ _ b (hway _ (Eq.trans rfl hcore)) hsame⟩

/-- A block is read. -/
theorem readBlock (hb : b < s.dirBlocks d) (hcore : t.core = s.core) : wp (readDirBlock d b)
    (fun q u => q = place b ∧ u.core = s.core ∧ ∀ a < s.geo.bs, u.b2 a = s.disk (place b) a)
    (fun _ => False) t := by
  have hgeo := core_geo hcore
  have hi : t.geo.IsIno d := hgeo.symm ▸ hf.isIno
  have hsame := loaded_ino (hgeo.symm ▸ hf.geo) hi
  rw [core_inodes hcore] at hsame
  rw [readDirBlock, wp_bind, wp_loadInode (hgeo.symm ▸ hf.geo)]
  refine ⟨fun _ => ?_, fun hn => absurd hi hn⟩
  rw [wp_bind, wp_get, wp_bind, wp_guard]
  refine ⟨fun _ => ?_, fun hn => absurd (hsame.sameMap.isDir.mpr hf.dir) hn⟩
  have hplace := (hf.blockOf_loaded hcore b).2
  rw [if_pos hb] at hplace
  rw [wp_bind]
  refine wp_mono (wp_mapLblock_blockOf (.refl (t.loaded d))) ?_ ?_
  · rintro q t' ⟨hq, hnear⟩
    obtain rfl := Option.some.inj (hplace.symm.trans hq)
    have hcore' : t'.core = s.core := hnear.core.trans (Eq.trans rfl hcore)
    have hlt : place b < t'.geo.blocks := core_geo hcore' ▸ (hf.own b hb).1
    rw [wp_bind, wp_readB2]
    refine ⟨fun _ => ⟨rfl, Eq.trans rfl hcore', fun a ha => ?_⟩, fun hn => absurd hlt hn⟩
    rw [read2, setB2_b2, core_geo hcore', core_disk hcore', memcpy_zero_of_lt ha, Nat.zero_add]
  · rintro t' ⟨hq, -⟩
    exact Option.some_ne_none _ (hplace.symm.trans hq)

/-- **What is listed** are the entries of the blocks. -/
theorem entries : s.entries d = some (s.placedEntries d place) := by
  have hsame := loaded_ino hf.geo hf.isIno
  have hsize : s.geo.blocksOf (inodeSize (s.loaded d).ino) = s.dirBlocks d := by
    rw [dirBlocks, hsame.inodeSize]
  have hblocks : ∀ b ∈ List.range (s.dirBlocks d),
      s.dirBlock d b = some (memcpy s.b2 0 (s.disk (place b)) 0 s.geo.bs) := by
    intro b hb
    have hb := List.mem_range.mp hb
    rw [dirBlock, blockBytes, (hf.blockOf_loaded rfl b).1, if_pos hb, Option.bind_some,
      if_pos (hf.own b hb).1]
    rfl
  obtain ⟨k, hk⟩ := listedBlocks_of hblocks 0 []
  rw [(Still.refl s).entries_eq hf.geo, listed, hsize,
    if_pos ⟨hf.isIno, hsame.sameMap.isDir.mpr hf.dir⟩, hk,
    Option.map_some, List.nil_append, placedEntries]
  refine congrArg some (List.flatMap_congr fun b hb => ?_)
  obtain ⟨l, hl⟩ := hf.chains b (List.mem_range.mp hb)
  have hb2 : ∀ a < s.geo.bs, memcpy s.b2 0 (s.disk (place b)) 0 s.geo.bs a =
      s.disk (place b) a := by
    intro a ha
    rw [memcpy_zero_of_lt ha, Nat.zero_add]
  rw [(hl.congr hb2).dirents, hl.filterMap_congr hb2, hl.dirents]

/-- There are no more blocks than the volume has. -/
theorem dirBlocks_le : s.dirBlocks d ≤ s.geo.blocks := by
  have hcard := Finset.card_le_card_of_injOn place (s := Finset.range (s.dirBlocks d))
    (t := Finset.range s.geo.blocks)
    (fun b hb => Finset.mem_coe.mpr (Finset.mem_range.mpr (hf.own b (Finset.mem_range.mp hb)).1))
    fun b hb c hc => hf.apart b (Finset.mem_range.mp hb) c (Finset.mem_range.mp hc)
  rwa [Finset.card_range, Finset.card_range] at hcard

/-! ## In a block the directory has -/

/-- **A block has a record more**, and so the directory has an entry more. -/
theorem extended (hb : b < s.dirBlocks d) (hl : Chain (s.disk (place b)) s.geo.bs l)
    (h : Extended s (place b) l e u) : Formed u d place ∧
      ∃ l₁ l₂, s.placedEntries d place = l₁ ++ l₂ ∧ u.placedEntries d place = l₁ ++ e :: l₂ := by
  obtain ⟨D, l', hcore, hchain, hents⟩ := h
  obtain ⟨-, hused, hmeta⟩ := hf.own b hb
  have hgeo : u.geo = s.geo := (core_geo hcore).trans rfl
  have hinodes : u.inodes = s.inodes := (core_inodes hcore).trans (inodes_setDisk hf.geo hmeta D)
  have hn : u.dirBlocks d = s.dirBlocks d := by rw [dirBlocks, dirBlocks, hgeo, hinodes]
  have hself : u.disk (place b) = D := by
    rw [core_disk hcore]
    exact Function.update_self _ _ _
  have hrest : ∀ c, c ≠ place b → u.disk c = s.disk c := by
    intro c hc
    rw [core_disk hcore]
    exact Function.update_of_ne hc _ _
  have hused' : ∀ c, u.Used c ↔ s.Used c := by
    intro c
    rw [Used, Used, hgeo, hrest _ (ne_of_not_meta hmeta Geometry.Ok.bbb_mem)]
  have hother : ∀ c < s.dirBlocks d, c ≠ b → u.disk (place c) = s.disk (place c) :=
    fun c hc hne => hrest _ fun heq => hne (hf.apart c hc b hb heq)
  refine ⟨⟨hgeo ▸ hf.geo, ?_, fun c hc => (hused' c).mpr (hf.kept c (hgeo ▸ hc)), hgeo ▸ hf.isIno,
    hinodes ▸ hf.dir, by rw [hinodes, hn, hgeo, hf.size], fun t img c ht himg => ?_, fun c hc => ?_,
    by rw [hn]; exact hf.apart, fun c hc => ?_⟩, ?_⟩
  · rw [hgeo, core_hint hcore]
    exact hf.hint
  · rw [hn]
    refine hf.found t img c ⟨ht.geo.trans hgeo, fun a ha hm hown => ?_⟩ (hinodes ▸ himg)
    have hown' : ¬u.InDir d place a := by rwa [InDir, hn]
    rw [ht.disk a ((hused' a).mpr ha) (hgeo.symm ▸ hm) hown']
    exact hrest a fun heq => hown ⟨b, hb, heq.symm⟩
  · rw [hn] at hc
    rw [hgeo, hused']
    exact hf.own c hc
  · rw [hn] at hc
    rw [hgeo]
    by_cases hcb : c = b
    · exact ⟨l', hcb ▸ hself.symm ▸ hchain⟩
    · rw [hother c hc hcb]
      exact hf.chains c hc
  · have hhere : dirents (u.disk (place b)) s.geo.bs s.geo.bs 0 =
        dirents (s.disk (place b)) s.geo.bs s.geo.bs 0 ++ [e] := by
      rw [hself, hchain.dirents, hents, hl.dirents]
    have hsplit :=
      flatMap_range_insert (f := fun c => dirents (s.disk (place c)) s.geo.bs s.geo.bs 0)
      (g := fun c => if c < s.dirBlocks d then dirents (u.disk (place c)) s.geo.bs s.geo.bs 0
        else dirents (s.disk (place c)) s.geo.bs s.geo.bs 0) hb (List.append_nil _).symm
      ((if_pos hb).trans hhere) fun c hne => ?_
    · obtain ⟨l₁, l₂, h₁, h₂⟩ := hsplit
      refine ⟨l₁, l₂, h₁, h₂ ▸ ?_⟩
      rw [placedEntries, hn, hgeo]
      exact List.flatMap_congr fun c hc => (if_pos (List.mem_range.mp hc)).symm
    · split_ifs with hc
      · rw [hother c hc hne]
      · rfl

end Formed

/-! ## In a new block -/

/-- An image with an index, or with no tree at all, has its map from somewhere else. -/
theorem blockOf_leaf (s : Fs) (b : ℕ) (hflag : r32 img 0x20 &&& kExtentsFl ≠ 0)
    (hdepth : r16 img 0x2E = 0) :
    s.blockOf img b = mapFlat img b := by
  have hdepth' : r16 (fun a => img (0x28 + a)) 6 = 0 := hdepth
  have hmagic : r16 (fun a => img (0x28 + a)) 0 = r16 img 0x28 := rfl
  rw [blockOf, if_pos hflag, kMaxDepth, treeWalk, if_pos hdepth', leafFind_image, hmagic, mapFlat]

/-- A new record of an index leads to no child, and the others lead to the same children. -/
theorem indexFind_longer {node node' : Bytes} {n k i c : ℕ} (hn : n < 2 ^ 32 - 1)
    (hcount : r16 node' 2 = r16 node 2 + 1) (hik : i + k = r16 node 2)
    (hold : ∀ j < 12 + r16 node 2 * 12, 12 ≤ j → node' j = node j)
    (hkey : keyAt node' (r16 node 2) = n)
    (hhigh : 0 < r16 node' (12 + r16 node 2 * 12 + 8))
    (h : indexFind node' n (List.range' i (k + 1)) = some c) :
    2 ^ 16 ≤ c ∨ indexFind node n (List.range' i k) = some c := by
  have hkeys : ∀ j < r16 node 2, keyAt node' j = keyAt node j :=
    fun j hj => r32_congr fun a ha => hold _ (by omega) (by omega)
  induction k generalizing i with
  | zero =>
    obtain rfl : i = r16 node 2 := by omega
    have hnext : nextKey node' 0xFFFFFFFF (r16 node 2) = 0xFFFFFFFF := by
      rw [nextKey, hcount, if_neg (by omega)]
    rw [List.range'_succ, indexFind_cons, hkey, hnext, if_neg (lt_irrefl n), if_neg (by omega)] at h
    have hc := Option.some.inj h
    have hle : r16 node' (12 + r16 node 2 * 12 + 8) * 2 ^ 16 ≤ c := hc ▸ Nat.left_le_or
    exact .inl (by omega)
  | succ k ih =>
    have hnext' : nextKey node' 0xFFFFFFFF i = keyAt node' (i + 1) := by
      rw [nextKey, hcount, if_pos (by omega)]
    have hnext : i + 1 ≠ r16 node 2 → nextKey node 0xFFFFFFFF i = keyAt node' (i + 1) := by
      intro hne
      rw [nextKey, if_pos (by omega), hkeys (i + 1) (by omega)]
    rw [List.range'_succ, indexFind_cons, hkeys i (by omega), hnext'] at h
    rw [List.range'_succ, indexFind_cons]
    by_cases hlt : n < keyAt node i
    · rw [if_pos hlt] at h
      exact absurd h.symm (Option.some_ne_none c)
    rw [if_neg hlt] at h ⊢
    by_cases hlast : i + 1 = r16 node 2
    · -- The new record ends the range of the last one.
      obtain rfl : k = 0 := by omega
      rw [hlast, hkey, if_pos le_rfl, ← hlast] at h
      refine .inl ((ih (by omega) h).resolve_right fun hin => ?_)
      exact Option.some_ne_none c hin.symm
    rw [hnext hlast]
    by_cases hle : keyAt node' (i + 1) ≤ n
    · rw [if_pos hle] at h ⊢
      exact ih (by omega) h
    · have hchild : childAt node' i = childAt node i :=
        r32_congr fun a ha => hold _ (by omega) (by omega)
      have hlow : r16 node' (12 + i * 12 + 8) = r16 node (12 + i * 12 + 8) :=
        r16_congr fun a ha => hold _ (by omega) (by omega)
      rw [if_neg hle, hchild, hlow] at h
      rw [if_neg hle]
      exact .inr h

/-- **What the end of `dir_add_entry` leaves.** -/
structure Enlarged (s : Fs) (d p : ℕ) (e : Dirent) (img : Bytes) (u : Fs) : Prop where
  geo : u.geo = s.geo
  /-- The next search does not wrap either. -/
  hint : u.hint + s.geo.blocks ≤ 2 ^ 32
  /-- One more block is in use. -/
  used : ∀ c, u.Used c ↔ s.Used c ∨ c = p
  /-- No other block has changed. -/
  disk : ∀ c, ¬s.geo.IsMeta c → c ≠ p → u.disk c = s.disk c
  /-- One record fills the new block. -/
  chain : Chain (u.disk p) s.geo.bs [0]
  /-- It is the entry. -/
  entry : direntAt (u.disk p) 0 = some e
  /-- The image was the directory's. -/
  same : Same img (s.inodes d)
  /-- On the disk it has one block more. -/
  image : Same (u.inodes d) (grownDir img (s.dirBlocks d) p (inodeSize (s.inodes d)) s.geo.bs)

/-- The block that is going to be taken is on the volume, free, and holds no metadata. -/
theorem Formed.free (hf : Formed s d place) (hrun : s.freeRun 1 = some p) :
    p < s.geo.blocks ∧ ¬s.Used p ∧ ¬s.geo.IsMeta p := by
  obtain ⟨-, hle, hclear⟩ := freeRun_spec hf.geo (hf.kept 0 (.inl rfl)) hf.hint hrun
  have hfree : ¬s.Used p := hclear p le_rfl (Nat.lt_succ_self p)
  exact ⟨hle, hfree, fun hm => hfree (hf.kept p hm)⟩

theorem Outgrown.enlarged (h : Outgrown s d p (inodeSize (s.inodes d)) (s.dirBlocks d) e D img t)
    (hf : Formed s d place) (hrun : s.freeRun 1 = some p) : Enlarged s d p e img (t.stored d) := by
  have hg := hf.geo
  obtain ⟨hlt, -, hmeta⟩ := hf.free hrun
  have hgeo := took_geo h.core
  have hi : t.geo.IsIno d := hgeo.symm ▸ hf.isIno
  have hstored : ∀ c, c ≠ s.geo.slotBlock d → (t.stored d).disk c = t.disk c :=
    fun c hc => stored_disk t d (hgeo.symm ▸ hc)
  have hne : ∀ c, ¬s.geo.IsMeta c → c ≠ s.geo.slotBlock d :=
    fun c hc heq => hc (heq ▸ hg.slotBlock_meta hf.isIno)
  have hself : (t.stored d).disk p = D := (hstored p (hne p hmeta)).trans (took_self h.core)
  have hbits : (t.stored d).disk s.geo.bbb = (s.disk s.geo.bbb).setBits p 1 := by
    rw [hstored _ (hg.slotBlock_ne hf.isIno Geometry.Ok.bbb_mem).symm, core_disk h.core]
    refine (Function.update_of_ne (ne_of_not_meta hmeta Geometry.Ok.bbb_mem) _ _).trans ?_
    rw [taken_disk ((Nat.succ_le_of_lt hlt).trans hg.blocks), Function.update_self]
  refine ⟨hgeo, ?_, fun c => ?_, fun c hc hp => ?_, hself ▸ h.chain, hself ▸ h.entry, h.same, ?_⟩
  · have hblocks := hg.blocks_le
    have hhint : t.hint = u32 (p + 1) % s.geo.blocks := (core_hint h.core).trans rfl
    have hmod : u32 (p + 1) % s.geo.blocks < s.geo.blocks := Nat.mod_lt _ (by omega)
    change t.hint + s.geo.blocks ≤ 2 ^ 32
    omega
  · have hgeo' : (t.stored d).geo = s.geo := hgeo
    rw [Used, Used, hgeo', hbits, bit_setBits, Bool.or_eq_true, decide_eq_true_eq, or_comm]
    exact or_congr_right ⟨fun hc => by omega, fun hc => by omega⟩
  · rw [hstored c (hne c hc)]
    exact took_disk hg hlt h.core (ne_of_not_meta hc Geometry.Ok.bbb_mem).symm hp
  · have hinodes := inodes_stored (hgeo.symm ▸ hg) hi d
    rwa [Function.update_self, h.ino] at hinodes

/-- The size tells that the high word of it is zero. -/
theorem high_of_inodeSize {k : ℕ} (h : inodeSize img = k) (hk : k < 0xFFFFFFFF) :
    r32 img 0x6C = 0 := by
  by_contra hne
  rw [inodeSize, if_pos hne] at h
  omega

namespace Enlarged

variable (h : Enlarged s d p e img u) (hf : Formed s d place)

include h

/-- The image has the map with the new extent. -/
theorem sameMap (himg : Same img' (u.inodes d)) :
    SameMap img' (addExtent img (s.dirBlocks d) 1 p) :=
  (himg.trans h.image).sameMap.trans (sameMap_grownDir _ _ _ _ _)

theorem flags (himg : Same img' (u.inodes d)) : r32 img' 0x20 = r32 img 0x20 := by
  rw [(h.sameMap himg).flags]
  exact r32_congr fun j hj => addExtent_apply img _ _ _ (by omega) (by omega)

theorem magic (himg : Same img' (u.inodes d)) : r16 img' 0x28 = r16 img 0x28 := by
  rw [(h.sameMap himg).magic]
  exact r16_congr fun j hj => addExtent_apply img _ _ _ (by omega) (by omega)

theorem depth (himg : Same img' (u.inodes d)) : r16 img' 0x2E = r16 img 0x2E := by
  rw [(h.sameMap himg).depth]
  exact r16_congr fun j hj => addExtent_apply img _ _ _ (by omega) (by omega)

theorem count (he : r16 (s.inodes d) 0x2A < 4) (himg : Same img' (u.inodes d)) :
    r16 img' 0x2A = r16 img 0x2A + 1 := by
  rw [(h.sameMap himg).entries]
  exact entries_addExtent _ _ _ _ (by rwa [h.same.r16 (by omega)])

include hf

/-- The directory is a block larger. -/
theorem size (he : r16 (s.inodes d) 0x2A < 4) : u.dirBlocks d = s.dirBlocks d + 1 ∧
    inodeSize (u.inodes d) = (s.dirBlocks d + 1) * s.geo.bs := by
  have hbs := hf.geo.bs_le
  have hbs₀ := hf.geo.bs_pos
  have hle := hf.dirBlocks_le
  have hblocks := hf.geo.blocks_le
  have hsize := hf.size
  generalize hn : s.dirBlocks d = n at hle hsize
  have hnbs : n * s.geo.bs ≤ 32768 * 4096 := Nat.mul_le_mul (by omega) hbs
  have hhigh : r32 img 0x6C = 0 := by
    rw [h.same.r32 (by omega)]
    exact high_of_inodeSize hsize (by omega)
  have hsizeu : inodeSize (u.inodes d) = (n + 1) * s.geo.bs := by
    rw [h.image.inodeSize, hsize,
      inodeSize_grownDir (by rwa [h.same.r16 (by omega)]) hhigh (by omega),
      Nat.succ_mul]
  refine ⟨?_, hsizeu⟩
  rw [dirBlocks, hsizeu, h.geo, Geometry.blocksOf, u32,
    Nat.mod_eq_of_lt (by rw [Nat.succ_mul]; omega),
    Nat.add_sub_assoc hbs₀, Nat.add_comm, Nat.add_mul_div_right _ _ hbs₀,
    Nat.div_eq_of_lt (by omega),
    Nat.zero_add]

end Enlarged

namespace Formed

variable (hf : Formed s d place) (hrun : s.freeRun 1 = some p) (he : r16 (s.inodes d) 0x2A < 4)
  (h : Enlarged s d p e img u)

include hf hrun he h

/-- **Another extent in the image is found**, and so the directory has an entry more. -/
theorem enlarged (ht : TakesExtent (s.inodes d)) : ∃ place', Formed u d place' ∧
    u.placedEntries d place' = s.placedEntries d place ++ [e] := by
  have hg := hf.geo
  have hblocks := hg.blocks_le
  have hle := hf.dirBlocks_le
  obtain ⟨hlt, hfree, hmeta⟩ := hf.free hrun
  obtain ⟨hn, hsize⟩ := h.size hf he
  have hused : ∀ c, s.Used c → u.Used c := fun c hc => (h.used c).mpr (.inl hc)
  have hne : ∀ b < s.dirBlocks d, place b ≠ p := fun b hb heq => hfree (heq ▸ (hf.own b hb).2.1)
  have hdisk : ∀ b < s.dirBlocks d, u.disk (place b) = s.disk (place b) :=
    fun b hb => h.disk _ (hf.own b hb).2.2 (hne b hb)
  have hentries : r16 img 0x2A < 4 := by rwa [h.same.r16 (by omega)]
  have hmagic : r16 img 0x28 = kExtMagic := (h.same.r16 (by omega)).trans ht.magic
  have hhigh : r16 img (0x34 + r16 img 0x2A * 12 + 6) = 0 := by
    rw [h.same.r16 (by omega), h.same.r16 (p := 0x2A) (by omega)]
    exact ht.high
  have hflag : r32 img 0x20 &&& kExtentsFl ≠ 0 := by
    rw [h.same.r32 (by omega)]
    exact ht.flagged
  have hdepth : r16 img 0x2E = 0 := (h.same.r16 (by omega)).trans ht.depth
  let place' : ℕ → ℕ := fun b => if b = s.dirBlocks d then p else place b
  have hold : ∀ b < s.dirBlocks d, place' b = place b := fun b hb => if_neg hb.ne
  have hnew : place' (s.dirBlocks d) = p := if_pos rfl
  -- Whatever the new way leads through, the old way leads through.
  have hway : ∀ t, u.SameRoute (u.InDir d place') t → s.SameRoute (s.InDir d place) t := by
    intro t ht'
    refine ⟨ht'.geo.trans h.geo, fun c hc hm hown => ?_⟩
    have hcp : c ≠ p := fun heq => hfree (heq ▸ hc)
    rw [ht'.disk c (hused c hc) (h.geo.symm ▸ hm) ?_, h.disk c hm hcp]
    rintro ⟨b, hb, rfl⟩
    rw [hn] at hb
    rcases Nat.lt_succ_iff_lt_or_eq.mp hb with hb | rfl
    · exact hown ⟨b, hb, (hold b hb).symm⟩
    · exact hcp hnew
  have hfound : ∀ t img' b, u.SameRoute (u.InDir d place') t → Same img' (u.inodes d) →
      t.blockOf img' b = if b < s.dirBlocks d + 1 then some (place' b) else none := by
    intro t img' b hsame himg
    have hmap := h.sameMap himg
    have hcount : r16 (addExtent img (s.dirBlocks d) 1 p) 0x2A ≤ 4 := by
      rw [entries_addExtent _ _ _ _ hentries]
      exact hentries
    have hthere := hf.found t img b (hway t hsame) h.same
    rw [blockOf_leaf t b hflag hdepth] at hthere
    rw [blockOf_leaf t b (by rw [h.flags himg]; exact hflag) (by rw [h.depth himg]; exact hdepth),
      hmap.mapFlat_of_few hcount, mapFlat_addExtent_slot hmagic hentries (by omega)
      (by omega) (by omega),
      hthere, hhigh, Nat.zero_mul, Nat.zero_or]
    rcases lt_trichotomy b (s.dirBlocks d) with hb | rfl | hb
    · rw [if_pos hb, if_neg (by omega), if_pos (by omega), hold b hb]
      rfl
    · rw [if_neg (lt_irrefl _), if_pos (by omega), if_pos (by omega), hnew,
        Nat.sub_self, Nat.add_zero, u32,
        Nat.mod_eq_of_lt (by omega)]
      rfl
    · rw [if_neg (by omega), if_neg (by omega), if_neg (by omega)]
      rfl
  refine ⟨place', ⟨h.geo.symm ▸ hg, h.geo.symm ▸ h.hint,
    fun c hc => hused c (hf.kept c (h.geo ▸ hc)),
    h.geo.symm ▸ hf.isIno, ?_, by rw [hsize, hn, h.geo], by rw [hn]; exact hfound, fun b hb => ?_,
    fun b hb c hc heq => ?_, fun b hb => ?_⟩, ?_⟩
  · rw [IsDir, (h.sameMap (.refl _)).mode]
    have hmode : r16 (addExtent img (s.dirBlocks d) 1 p) 0 = r16 (s.inodes d) 0 := by
      rw [← h.same.r16 (by omega)]
      exact r16_congr fun j hj => addExtent_apply img _ _ _ (by omega) (by omega)
    rw [hmode]
    exact hf.dir
  · rw [hn] at hb
    rw [h.geo]
    rcases Nat.lt_succ_iff_lt_or_eq.mp hb with hb | rfl
    · rw [hold b hb]
      exact ⟨(hf.own b hb).1, hused _ (hf.own b hb).2.1, (hf.own b hb).2.2⟩
    · rw [hnew]
      exact ⟨hlt, (h.used p).mpr (.inr rfl), hmeta⟩
  · rw [hn] at hb hc
    rcases Nat.lt_succ_iff_lt_or_eq.mp hb with hb | rfl
    · rcases Nat.lt_succ_iff_lt_or_eq.mp hc with hc | rfl
      · rw [hold b hb, hold c hc] at heq
        exact hf.apart b hb c hc heq
      · rw [hold b hb, hnew] at heq
        exact absurd heq (hne b hb)
    · rcases Nat.lt_succ_iff_lt_or_eq.mp hc with hc | rfl
      · rw [hnew, hold c hc] at heq
        exact absurd heq.symm (hne c hc)
      · rfl
  · rw [hn] at hb
    rw [h.geo]
    rcases Nat.lt_succ_iff_lt_or_eq.mp hb with hb | rfl
    · rw [hold b hb, hdisk b hb]
      exact hf.chains b hb
    · rw [hnew]
      exact ⟨[0], h.chain⟩
  · rw [placedEntries, hn, h.geo, List.range_succ, List.flatMap_append,
      List.flatMap_singleton, hnew,
      h.chain.dirents, List.filterMap_cons, h.entry]
    refine congrArg (· ++ [e]) (List.flatMap_congr fun b hb => ?_)
    have hb := List.mem_range.mp hb
    rw [hold b hb, hdisk b hb]

omit hrun in
/-- The first pointer of an inode without extents has become too large. -/
theorem lost_pointer (hflag : ¬r32 img 0x20 &&& kExtentsFl ≠ 0)
    (himg : Same img' (u.inodes d)) {q : ℕ}
    (hq : u.blockOf img' 0 = some q) : u.geo.blocks ≤ q := by
  have hcount := h.count he himg
  rw [blockOf, h.flags himg, if_neg hflag, indirect, if_pos (by decide), target] at hq
  split at hq
  · next hin =>
    have hsplit : r32 img' (0x28 + 0 * 4) = r16 img' 0x28 + r16 img' 0x2A * 2 ^ 16 :=
      r32_eq img' 0x28
    have hblocks := hf.geo.blocks_le
    rw [h.geo] at hin
    omega
  · exact absurd hq.symm (Option.some_ne_none q)

/-- The new record of an index leads to no child. -/
theorem lost_index (hflag : r32 img 0x20 &&& kExtentsFl ≠ 0) (hdepth : r16 img 0x2E ≠ 0)
    (himg : Same img' (u.inodes d)) : u.blockOf img' (s.dirBlocks d) = none := by
  have hblocks := hf.geo.blocks_le
  have hle := hf.dirBlocks_le
  obtain ⟨hlt, hfree, hmeta⟩ := hf.free hrun
  have hentries : r16 img 0x2A < 4 := by rwa [h.same.r16 (by omega)]
  have hsame : s.SameRoute (s.InDir d place) u :=
    ⟨h.geo, fun c hc hm _ => h.disk c hm fun heq => hfree (heq ▸ hc)⟩
  have hnone := hf.found u img (s.dirBlocks d) hsame h.same
  have hmap := h.sameMap himg
  rw [if_neg (lt_irrefl _), blockOf, if_pos hflag, kMaxDepth, treeWalk] at hnone
  rw [blockOf, if_pos (by rw [h.flags himg]; exact hflag), kMaxDepth, treeWalk]
  have hmagic : r16 (fun a => img' (0x28 + a)) 0 = r16 (fun a => img (0x28 + a)) 0 := h.magic himg
  have hdepth₀ : r16 (fun a => img (0x28 + a)) 6 ≠ 0 := hdepth
  have hdepth' : r16 (fun a => img' (0x28 + a)) 6 ≠ 0 := by
    have hsame : r16 (fun a => img' (0x28 + a)) 6 = r16 img 0x2E := h.depth himg
    rwa [hsame]
  have hcount₀ : r16 (fun a => img (0x28 + a)) 2 = r16 img 0x2A := rfl
  have hcount : r16 (fun a => img' (0x28 + a)) 2 = r16 img 0x2A + 1 := h.count he himg
  have hat : ∀ j, 0x20 ≤ j → j < 100 → img' j = addExtent img (s.dirBlocks d) 1 p j :=
    fun j _ _ => hmap j (by omega)
  have hold : ∀ j < 12 + r16 (fun a => img (0x28 + a)) 2 * 12, 12 ≤ j →
      img' (0x28 + j) = img (0x28 + j) := by
    intro j hj _
    rw [hcount₀] at hj
    rw [hat _ (by omega) (by omega), addExtent_apply img _ _ _ (by omega) (by omega)]
  have hkey : keyAt (fun a => img' (0x28 + a)) (r16 (fun a => img (0x28 + a)) 2) =
      s.dirBlocks d := by
    have hword : r32 (addExtent img (s.dirBlocks d) 1 p) (0x34 + r16 img 0x2A * 12) =
        s.dirBlocks d := by
      rw [addExtent, r32_w16_of_disjoint (by omega), r32_w32_of_disjoint (by omega),
        r32_w16_of_disjoint (by omega), r32_w32_self, Nat.mod_eq_of_lt (by omega)]
    rw [hcount₀, ← hword]
    refine r32_congr fun j hj => ?_
    rw [← hat _ (by omega) (by omega)]
    exact congrArg img' (by omega)
  have hhigh : 0 < r16 (fun a => img' (0x28 + a))
      (12 + r16 (fun a => img (0x28 + a)) 2 * 12 + 8) := by
    have hword : r32 (addExtent img (s.dirBlocks d) 1 p) (0x34 + r16 img 0x2A * 12 + 8) = p := by
      rw [addExtent, r32_w16_of_disjoint (by omega), r32_w32_self, Nat.mod_eq_of_lt (by omega)]
    have hlow : r16 (fun a => img' (0x28 + a)) (12 + r16 (fun a => img (0x28 + a)) 2 * 12 + 8) =
        r16 (addExtent img (s.dirBlocks d) 1 p) (0x34 + r16 img 0x2A * 12 + 8) := by
      refine r16_congr fun j hj => ?_
      rw [hcount₀, ← hat _ (by omega) (by omega)]
      exact congrArg img' (by omega)
    have hpos : p ≠ 0 := fun hz => hmeta (.inl hz)
    have hsplit := r32_eq (addExtent img (s.dirBlocks d) 1 p) (0x34 + r16 img 0x2A * 12 + 8)
    rw [hlow]
    omega
  rw [hmagic]
  by_cases hm : r16 (fun a => img (0x28 + a)) 0 = kExtMagic
  · rw [if_pos hm, if_neg hdepth₀] at hnone
    rw [if_pos hm, if_neg hdepth']
    cases hfind : indexFind (fun a => img' (0x28 + a)) (s.dirBlocks d)
        (List.range (r16 (fun a => img' (0x28 + a)) 2)) with
    | none => rfl
    | some c =>
      rw [Option.bind_some]
      split_ifs with hc
      · rw [hcount, List.range_eq_range', ← hcount₀] at hfind
        rcases indexFind_longer (by omega) (hcount.trans rfl) (Nat.zero_add _) hold hkey hhigh
          hfind with hbig | hin
        · rw [h.geo] at hc
          omega
        · rw [List.range_eq_range', hin, Option.bind_some, if_pos hc] at hnone
          exact hnone
      · rfl
  · rw [if_neg hm]

/-- **Otherwise a block is not found any more**, and nothing is listed. -/
theorem lost (ht : ¬TakesExtent (s.inodes d)) : u.entries d = none := by
  have hblocks := hf.geo.blocks_le
  have hle := hf.dirBlocks_le
  obtain ⟨hn, -⟩ := h.size hf he
  obtain ⟨hlt, hfree, -⟩ := hf.free hrun
  have hg : u.geo.Ok := h.geo.symm ▸ hf.geo
  have hi : u.geo.IsIno d := h.geo.symm ▸ hf.isIno
  have himg := loaded_ino hg hi
  by_cases hflag : r32 img 0x20 &&& kExtentsFl ≠ 0
  · refine entries_none hg hi (b := s.dirBlocks d) (by omega) fun q hq => ?_
    by_cases hdepth : r16 img 0x2E = 0
    · have hentries : r16 img 0x2A < 4 := by rwa [h.same.r16 (by omega)]
      have hcount : r16 (addExtent img (s.dirBlocks d) 1 p) 0x2A ≤ 4 := by
        rw [entries_addExtent _ _ _ _ hentries]
        exact hentries
      rw [blockOf_leaf u _ (by rw [h.flags himg]; exact hflag) (by rw [h.depth himg]; exact hdepth)]
        at hq
      by_cases hmagic : r16 img 0x28 = kExtMagic
      · have hsame : s.SameRoute (s.InDir d place) u :=
          ⟨h.geo, fun c hc hm _ => h.disk c hm fun heq => hfree (heq ▸ hc)⟩
        have hnone := hf.found u img (s.dirBlocks d) hsame h.same
        have hhigh : r16 img (0x34 + r16 img 0x2A * 12 + 6) ≠ 0 := by
          intro hz
          refine ht ⟨by rwa [← h.same.r32 (by omega)], by rwa [← h.same.r16 (by omega)],
            by rwa [← h.same.r16 (by omega)], ?_⟩
          rwa [← h.same.r16 (by omega), ← h.same.r16 (p := 0x2A) (by omega)]
        have hhigh_lt := r16_lt img (0x34 + r16 img 0x2A * 12 + 6)
        rw [blockOf_leaf u _ hflag hdepth, if_neg (lt_irrefl _)] at hnone
        rw [(h.sameMap himg).mapFlat_of_few hcount,
          mapFlat_addExtent_slot hmagic hentries (by omega) (by omega) (by omega), hnone,
          if_pos ⟨le_rfl, Nat.lt_succ_self _⟩, Nat.sub_self, Nat.add_zero] at hq
        generalize r16 img (0x34 + r16 img 0x2A * 12 + 6) = high at hq hhigh hhigh_lt
        have hor : high * 2 ^ 16 ≤ high * 2 ^ 16 ||| p := Nat.left_le_or
        have hor_lt : high * 2 ^ 16 ||| p < 2 ^ 32 := Nat.or_lt_two_pow (by omega) (by omega)
        have hq := Option.some.inj hq
        rw [u32, Nat.mod_eq_of_lt hor_lt] at hq
        rw [h.geo]
        omega
      · rw [mapFlat, if_neg (by rw [h.magic himg]; exact hmagic)] at hq
        exact absurd hq.symm (Option.some_ne_none q)
    · rw [hf.lost_index hrun he h hflag hdepth himg] at hq
      exact absurd hq.symm (Option.some_ne_none q)
  · exact entries_none hg hi (b := 0) (by omega) fun q hq => hf.lost_pointer he h hflag himg hq

end Formed

/-! ## One entry more -/

/-- Where the entries are one more, and no other has its name, the directory is as the claim of the
caller has it. -/
theorem Formed.addsOne {place' : ℕ → ℕ} {l₁ l₂ : List Dirent} (hf : Formed s d place)
    (hf' : Formed u d place')
    (hold : s.placedEntries d place = l₁ ++ l₂) (hents : u.placedEntries d place' = l₁ ++ e :: l₂)
    (hnew : ∀ e' ∈ s.placedEntries d place, e'.name ≠ e.name) : AddsOne s d e u := by
  have hname : (exec (lookupFrom [e.name] d) u).1 = some e.ino := by
    rw [hold] at hnew
    have hfront : l₁.find? (fun e' => decide (e'.name = e.name)) = none := by
      refine List.find?_eq_none.mpr fun e' he' hn => ?_
      exact hnew e' (List.mem_append_left l₂ he') (of_decide_eq_true hn)
    rw [exec_lookupFrom_single hf'.entries, hents, List.find?_append, hfront,
      List.find?_cons, decide_eq_true rfl]
    rfl
  have hg : u.geo.Ok := hf'.geo
  refine ⟨⟨_, _, hf.entries, hf'.entries, ?_⟩, ⟨place', hf'⟩, fun names k hk => ?_⟩
  · rw [hold, hents]
    exact List.perm_middle
  · rw [exec_lookupFrom hg] at hk hname ⊢
    rw [descend_append, hk, Option.bind_some, hname]

/-- **`dir_add_entry`**, for a directory of any layout. -/
theorem Formed.wp_dirAddEntry (hf : Formed s d place) (hname : DirentName name)
    (hino : 0 < ino ∧ ino < 2 ^ 32)
    (htype : type < 256) : wp (dirAddEntry d name ino type)
      (fun _ u => if ∃ b < s.dirBlocks d, roomIn (s.disk (place b)) s.geo.bs
        (direntUsed name.length) = true then
          ∃ b < s.dirBlocks d, ∃ l, Chain (s.disk (place b)) s.geo.bs l ∧
          Extended s (place b) l ⟨ino, name, type⟩ u
        else ∃ p img, s.freeRun 1 = some p ∧ r16 (s.inodes d) 0x2A < 4 ∧
        Enlarged s d p ⟨ino, name, type⟩ img u)
      (fun _ => True) s := by
  have hg := hf.geo
  have hsame := loaded_ino hg hf.isIno
  rw [dirAddEntry, wp_bind, wp_get, wp_bind, wp_guard]
  refine ⟨fun _ => ?_, fun _ => trivial⟩
  rw [wp_bind, wp_loadInode hg]
  refine ⟨fun _ => ?_, fun _ => trivial⟩
  have hcore : (s.loaded d).core = s.core := rfl
  generalize s.loaded d = t at hsame hcore ⊢
  have hblocks : s.geo.blocksOf (inodeSize (s.inodes d)) = s.dirBlocks d := rfl
  rw [wp_bind, wp_get, wp_bind, wp_guard, hsame.inodeSize, core_geo hcore]
  dsimp only
  rw [hblocks]
  refine ⟨fun _ => ?_, fun _ => trivial⟩
  have hround : ∀ b ∈ List.range (s.dirBlocks d), ∀ t : Fs, t.core = s.core →
      wp (addInBlock d name ino type b)
        (fun done u => done = roomIn (s.disk (place b)) s.geo.bs (direntUsed name.length) ∧
          if done then
          ∃ b < s.dirBlocks d, ∃ l, Chain (s.disk (place b)) s.geo.bs l ∧
            Extended s (place b) l ⟨ino, name, type⟩ u
          else u.core = s.core) (fun _ => False) t := by
    intro b hb t hcore
    have hb := List.mem_range.mp hb
    obtain ⟨l, hl⟩ := hf.chains b hb
    refine wp_mono (wp_addInBlock_of hg (hf.own b hb).1 hl hname hino htype (hf.readBlock hb hcore))
      ?_ fun _ => id
    rintro (_ | _) u ⟨hdone, hu⟩
    · exact ⟨hdone, hu⟩
    · exact ⟨hdone, b, hb, l, hl, hu⟩
  rw [wp_bind]
  refine wp_mono (wp_addInBlocks_of hround hcore) ?_ fun _ => False.elim
  rintro done u ⟨hdone, hu⟩
  simp only [List.mem_range] at hdone
  cases done with
  | true =>
    rw [if_pos rfl, wp_pure, if_pos (hdone.mp rfl)]
    exact hu
  | false =>
    have hroom : ¬∃ b < s.dirBlocks d, roomIn (s.disk (place b)) s.geo.bs
      (direntUsed name.length) = true :=
      fun h => Bool.noConfusion (hdone.mpr h)
    simp only [if_neg hroom]
    refine wp_growDir_of hg hf.isIno hf.dir (fun p hp => ⟨(hf.free hp).1, (hf.free hp).2.2⟩) hname
      hino htype hu
      (fun p D img t hrun he h => ⟨p, img, hrun, he, h.enlarged hf hrun⟩)
      (fun _ _ _ _ _ _ => trivial)
      fun _ _ _ => trivial

/-- **`dir_add_entry` adds exactly one entry** just when a block has room for it or the new block is
found. -/
theorem dirAddEntry_addsOne_iff (hf : Formed s d place) (hname : DirentName name)
    (hino : 0 < ino ∧ ino < 2 ^ 32)
    (htype : type < 256) (hnew : ∀ old, s.entries d = some old → ∀ e ∈ old, e.name ≠ name)
    (hex : exec (dirAddEntry d name ino type) s = (some ⟨⟩, u)) : AddsOne s d ⟨ino, name, type⟩ u ↔
      (∃ b < s.dirBlocks d, roomIn (s.disk (place b)) s.geo.bs (direntUsed name.length) = true) ∨
        TakesExtent (s.inodes d) := by
  have hnew := hnew _ hf.entries
  have hres := wp_of_some (hf.wp_dirAddEntry hname hino htype) hex
  split at hres
  · next hroom =>
    obtain ⟨b, hb, l, hl, hext⟩ := hres
    obtain ⟨hf', l₁, l₂, hold, hents⟩ := hf.extended hb hl hext
    exact ⟨fun _ => .inl hroom, fun _ => hf.addsOne hf' hold hents hnew⟩
  · next hroom =>
    obtain ⟨p, img, hrun, he, h⟩ := hres
    rw [or_iff_right hroom]
    constructor
    · intro hadds
      by_contra ht
      obtain ⟨-, new, -, hents, -⟩ := hadds.entries
      rw [hf.lost hrun he h ht] at hents
      exact Option.some_ne_none new hents.symm
    · intro ht
      obtain ⟨place', hf', hents⟩ := hf.enlarged hrun he h ht
      exact hf.addsOne hf' (List.append_nil _).symm hents hnew

/-- A directory on a volume in order is in order by itself. -/
theorem DirOk.formed (hd : DirOk s d) (hv : Valid s) :
    Formed s d fun b => (mapFlat (s.inodes d) b).getD 0 := by
  have hflat := hd.flat hv
  have hT : s.table d = s.inodes d := table_of_live hd.live
  have hplace : ∀ b < s.dirBlocks d, mapFlat (s.inodes d) b =
      some ((mapFlat (s.inodes d) b).getD 0) := by
    intro b hb
    obtain ⟨p, l, hm, -⟩ := hd.blocks b hb
    rw [hm]
    rfl
  refine ⟨hv.geo, hv.hint, hv.own.kept_used, hd.isIno, hd.dir, hd.size, fun t img b _ himg => ?_,
    fun b hb => ?_,
    fun b hb c hc heq => ?_, fun b hb => ?_⟩
  · have hflat' := himg.sameMap.flat hflat
    rw [blockOf_leaf t b (hflat'.flagged (.inr (himg.sameMap.isDir.mpr hd.dir))) hflat'.depth,
      himg.sameMap.mapFlat hflat]
    split_ifs with hb
    · exact hplace b hb
    · exact hd.behind b (not_lt.mp hb)
  · have hm : mapFlat (s.table d) b = some ((mapFlat (s.inodes d) b).getD 0) := hT ▸ hplace b hb
    obtain ⟨i, hi⟩ := covers_of_mapFlat (hv.flat d) hv.blocks_lt hm
    exact ⟨hv.mapFlat_lt hm, hv.own.own_used (d, i) _ hi, hv.mapFlat_not_meta hm⟩
  · have hb' := hplace b hb
    rw [heq] at hb'
    exact (hv.mapFlat_inj (hT ▸ hb' : mapFlat (s.table d) b = _) (hT ▸ hplace c hc : mapFlat
      (s.table d) c = _)).2
  · obtain ⟨p, l, hm, hl⟩ := hd.blocks b hb
    exact ⟨l, by rw [hm]; exact hl⟩

theorem dirAddEntry_small :
    AddsOne small kRootIno ⟨12, [97], 1⟩ (exec (dirAddEntry kRootIno [97] 12 1) small).2 :=
  (dirAddEntry_addsOne_iff (dirOk_small.formed valid_small) ⟨by decide, by decide,
    by decide⟩ (by decide)
    (by decide) (fun old hold e he => by
      have hents : small.entries kRootIno = some (small.dirEntries kRootIno) :=
        dirOk_small.entries valid_small
      have hne : ∀ e ∈ small.dirEntries kRootIno, e.name ≠ [97] := by decide +kernel
      obtain rfl := Option.some.inj (hents.symm.trans hold)
      exact hne e he)
    (exec_eq (by decide +kernel))).mpr (.inl ⟨0, by decide +kernel, by decide +kernel⟩)

/-! ## A directory without extents -/

/-- The only block of the root directory is full and a pointer leads to it. -/
def pointed : Fs :=
  { small with
    disk := fun b =>
      if b = 5 then memcpy (fun _ => 0) 128 (w32 (w32 (w16 (fun _ => 0) 0 0x41ED) 4 1024) 0x28 7) 0
        128
      else if b = 7 then
        w16 (w16 (freshDirBlock (fun _ => 0) 1024 kRootIno kRootIno) (12 + 4) 1000) (1012 + 4) 12
      else small.disk b }

theorem formed_pointed : Formed pointed kRootIno fun _ => 7 := by
  have hn : pointed.dirBlocks kRootIno = 1 := by decide +kernel
  have hmeta : ∀ c < 16, smallGeometry.IsMeta c → pointed.Used c := by
    unfold Used
    decide +kernel
  have hseven : pointed.Used 7 := by
    unfold Used
    decide +kernel
  refine ⟨smallGeometry_ok, by decide, fun c hc => hmeta c (smallGeometry_ok.meta_lt hc) hc,
    by decide,
    by decide +kernel, by decide +kernel, fun t img b ht himg => ?_,
    fun b hb => ⟨by decide, hseven, by decide⟩, fun b hb c hc _ => by omega,
    fun b hb => ⟨[0, 12, 1012], by decide +kernel⟩⟩
  have hgeo : t.geo = smallGeometry := ht.geo
  have hflag : r32 img 0x20 = 0 := by
    rw [himg.r32 (by omega)]
    decide +kernel
  have hpointers : ∀ k < 14, r32 (pointed.inodes kRootIno) (0x28 + k * 4) = if k = 0 then 7
      else 0 := by
    decide +kernel
  have hpointer : ∀ k < 14, t.target (r32 img (0x28 + k * 4)) = if k = 0 then some 7 else none := by
    intro k hk
    rw [himg.r32 (by omega), hpointers k hk, target, hgeo]
    split_ifs <;> first | rfl | contradiction
  rw [hn, blockOf, hflag, if_neg (by decide), indirect]
  rw [hpointer 12 (by decide), hpointer 13 (by decide), if_neg (show ¬12 = 0 by decide),
    if_neg (show ¬13 = 0 by decide), Option.bind_none, Option.bind_none]
  by_cases hb : b = 0
  · rw [if_pos (by omega), hpointer b (by omega), if_pos hb, if_pos (by omega)]
  · rw [if_neg (show ¬b < 1 by omega)]
    split_ifs with h₁ h₂ h₃
    · rw [hpointer b (by omega), if_neg hb]
    · rfl
    · rfl
    · rfl

/-- **The entry cannot be found**, and neither can what was there. -/
theorem dirAddEntry_pointed : Formed pointed kRootIno (fun _ => 7) ∧ DirentName [97] ∧
    (exec (dirAddEntry kRootIno [97] 12 1) pointed).1 = some ⟨⟩ ∧
    (∃ old, pointed.entries kRootIno = some old ∧ ∀ e ∈ old, e.name ≠ [97]) ∧
    ¬AddsOne pointed kRootIno ⟨12, [97], 1⟩ (exec (dirAddEntry kRootIno [97] 12 1) pointed).2 := by
  refine ⟨formed_pointed, ⟨by decide, by decide, by decide⟩, by decide +kernel,
    ⟨_, formed_pointed.entries, by decide +kernel⟩, fun h => ?_⟩
  obtain ⟨-, new, -, hents, -⟩ := h.entries
  have hnone : (exec (dirAddEntry kRootIno [97] 12 1) pointed).2.entries kRootIno = none := by
    decide +kernel
  rw [hnone] at hents
  exact Option.some_ne_none new hents.symm

end Fs

end Aurisys
