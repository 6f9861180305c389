import Aurisys.Fs.Dirs
import Aurisys.Fs.DirBlock
import Aurisys.Fs.Listing
import Aurisys.Fs.View

/-!
# Directories that are in order

A directory is in order when each of its blocks is there and in order, and none is behind its end.
Then what it lists are the entries of its blocks one after the other, and looking a name up in it
finds the first entry of that name. All of that depends on the inode and on its blocks, as with the
contents of a file.

## Main definitions

* `DirOk`
* `dirEntries` — the entries of the blocks

## Main results

* `DirOk.entries` — what `list_dir` lists
* `DirOk.lookup` — what is found under a name
* `Kept.dirOk`, `Kept.dirEntries`
-/

namespace Aurisys

open Bytes Fallible

namespace Fs

/-- How many blocks a directory has. -/
def dirBlocks (s : Fs) (d : ℕ) : ℕ := s.geo.blocksOf (inodeSize (s.inodes d))

/-- The inode is that of a directory, its size is so many blocks, these are in order, and there are
no more. -/
structure DirOk (s : Fs) (d : ℕ) : Prop where
  /-- The number is that of an inode, -/
  isIno : s.geo.IsIno d
  /-- which is in use, -/
  live : s.Live d
  /-- and a directory. -/
  dir : IsDir (s.inodes d)
  /-- It has extents. -/
  magic : r16 (s.inodes d) 0x28 = kExtMagic
  /-- It has as many blocks as its size says. -/
  size : inodeSize (s.inodes d) = s.dirBlocks d * s.geo.bs
  /-- Each is found, and its records fill it. -/
  blocks : ∀ b < s.dirBlocks d, ∃ p l, mapFlat (s.inodes d) b = some p ∧ Chain (s.disk p) s.geo.bs l
  /-- There are no more. -/
  behind : ∀ b, s.dirBlocks d ≤ b → mapFlat (s.inodes d) b = none

/-- The blocks of the directory are there and in order. -/
def InOrder (s : Fs) (d : ℕ) : Prop :=
  ∀ b < s.dirBlocks d, ∃ p l, mapFlat (s.inodes d) b = some p ∧ Chain (s.disk p) s.geo.bs l

/-- The entries of a block. -/
def blockEntries (s : Fs) (d b : ℕ) : List Dirent :=
  match mapFlat (s.inodes d) b with
  | some p => dirents (s.disk p) s.geo.bs s.geo.bs 0
  | none => []

/-- The entries of the blocks one after the other. -/
def dirEntries (s : Fs) (d : ℕ) : List Dirent :=
  (List.range (s.dirBlocks d)).flatMap (s.blockEntries d)

variable {s s' t : Fs} {d b p ino : ℕ} {l : List ℕ} {name : Str}

theorem blockEntries_of (hm : mapFlat (s.inodes d) b = some p) (hc : Chain (s.disk p) s.geo.bs l) :
    s.blockEntries d b = l.filterMap (direntAt (s.disk p)) := by
  rw [blockEntries, hm]
  exact hc.dirents

/-- **A block of a directory** is read where its map says, if it says something. -/
theorem wp_readDirBlock_map {Q : ℕ → Fs → Prop} {E : Fs → Prop} (hg : s.geo.Ok) (hi : s.geo.IsIno d)
    (hf : Flat s.geo (s.inodes d)) (hdir : IsDir (s.inodes d))
    (hQ : ∀ p t, mapFlat (s.inodes d) b = some p → t.core = s.core →
      t.b2 = memcpy s.b2 0 (s.disk p) 0 s.geo.bs → Q p t)
    (hE : mapFlat (s.inodes d) b = none → ∀ t, E t) : wp (readDirBlock d b) Q E s := by
  have hsame := loaded_ino hg hi
  have hcore : (s.loaded d).core = s.core := rfl
  have hb2 : (s.loaded d).b2 = s.b2 := rfl
  rw [readDirBlock, wp_bind, wp_loadInode hg]
  refine ⟨fun _ => ?_, fun hn => absurd hi hn⟩
  generalize s.loaded d = s₁ at hsame hcore hb2 ⊢
  have hflat : Flat s₁.geo s₁.ino := by
    rw [core_geo hcore]
    exact hsame.sameMap.flat hf
  have hdir₁ : IsDir s₁.ino := hsame.sameMap.isDir.mpr hdir
  have hm₁ := hsame.sameMap.mapFlat hf b
  rw [wp_bind, wp_get, wp_bind, wp_guard]
  refine ⟨fun _ => ?_, fun hn => absurd hdir₁ hn⟩
  rw [wp_bind]
  refine wp_mapLblock hflat (.inr hdir₁) (fun p hp => ?_) fun hnone => hE (hm₁ ▸ hnone) _
  rw [hm₁] at hp
  have hlt := hf.mapFlat_lt (lt_of_le_of_lt hg.blocks_le (by decide)) hp
  rw [wp_bind, wp_readB2]
  refine ⟨fun _ => ?_, fun hn => absurd (core_geo hcore ▸ hlt) hn⟩
  refine hQ p _ hp (Eq.trans rfl hcore) ?_
  rw [read2, setB2_b2, core_geo hcore, core_disk hcore, hb2]

theorem wp_readDirBlock_of {Q : ℕ → Fs → Prop} {E : Fs → Prop} (hg : s.geo.Ok) (hi : s.geo.IsIno d)
    (hf : Flat s.geo (s.inodes d)) (hdir : IsDir (s.inodes d))
    (hm : mapFlat (s.inodes d) b = some p)
    (hQ : ∀ s', s'.core = s.core → (∀ a < s.geo.bs, s'.b2 a = s.disk p a) → Q p s') :
    wp (readDirBlock d b) Q E s := by
  refine wp_readDirBlock_map hg hi hf hdir (fun q t hq hcore hb2 => ?_) fun hnone => ?_
  · obtain rfl := Option.some.inj (hm.symm.trans hq)
    refine hQ t hcore fun a ha => ?_
    have hcopy := memcpy_of_lt (m := s.b2) (p := 0) (s := s.disk p) (q := 0) ha
    rw [Nat.zero_add] at hcopy
    rw [hb2, hcopy]
  · rw [hm] at hnone
    exact absurd hnone (Option.some_ne_none p)

/-! ## Listing -/

/-- What is listed of a block: `g_b2` has the block in it, and behind that what was there. -/
def blockListing (s : Fs) (d b : ℕ) : Option (List Dirent) :=
  (mapFlat (s.inodes d) b).map fun p =>
    dirents (memcpy s.b2 0 (s.disk p) 0 s.geo.bs) s.geo.bs s.geo.bs 0

/-- What is listed of some blocks, if they are all there. -/
def listing (s : Fs) (d : ℕ) : List ℕ → Option (List Dirent)
  | [] => some []
  | b :: l => (s.blockListing d b).bind fun es => (s.listing d l).map (es ++ ·)

theorem listing_of_all {bl : List ℕ}
    (h : ∀ b ∈ bl, s.blockListing d b = some (s.blockEntries d b)) :
    s.listing d bl = some (bl.flatMap (s.blockEntries d)) := by
  induction bl with
  | nil => rfl
  | cons b bl ih =>
    rw [listing, h b (List.mem_cons_self ..), Option.bind_some,
      ih fun b hb => h b (List.mem_cons_of_mem _ hb), List.flatMap_cons]
    rfl

theorem memcpy_memcpy (m x y : Bytes) (k : ℕ) :
    memcpy (memcpy m 0 x 0 k) 0 y 0 k = memcpy m 0 y 0 k := by
  funext a
  by_cases ha : a < k
  · have h := memcpy_of_lt (m := memcpy m 0 x 0 k) (p := 0) (s := y) (q := 0) ha
    have h' := memcpy_of_lt (m := m) (p := 0) (s := y) (q := 0) ha
    rw [Nat.zero_add] at h h'
    rw [h, h']
  · rw [memcpy_of_lt_or_ge (by omega), memcpy_of_lt_or_ge (by omega), memcpy_of_lt_or_ge (by omega)]

/-- **The loop of `list_dir`.** -/
theorem wp_listBlocks (hg : s.geo.Ok) (hi : s.geo.IsIno d) (hf : Flat s.geo (s.inodes d))
    (hdir : IsDir (s.inodes d)) {bl : List ℕ} {count : ℕ} {acc : List Dirent}
    (hcore : t.core = s.core) (hb2 : t.b2 = s.b2 ∨ ∃ x, t.b2 = memcpy s.b2 0 x 0 s.geo.bs) :
    wp (listBlocks collect d bl count acc)
      (fun r _ => ∃ es, s.listing d bl = some es ∧ r.2 = acc ++ es)
      (fun _ => s.listing d bl = none) t := by
  induction bl generalizing t count acc with
  | nil =>
    rw [listBlocks, wp_pure]
    exact ⟨[], rfl, (List.append_nil acc).symm⟩
  | cons b bl ih =>
    have hinodes := core_inodes hcore
    have hgeo := core_geo hcore
    rw [listBlocks, wp_bind]
    refine wp_readDirBlock_map (hgeo ▸ hg) (hgeo ▸ hi) (by rw [hinodes, hgeo]; exact hf)
      (hinodes ▸ hdir) (fun p t' hp hcore' hb2' => ?_) fun hnone _ => ?_
    · rw [hinodes] at hp
      have hread : t'.b2 = memcpy s.b2 0 (s.disk p) 0 s.geo.bs := by
        rw [hb2', hgeo, core_disk hcore]
        rcases hb2 with h | ⟨x, h⟩
        · rw [h]
        · rw [h, memcpy_memcpy]
      have hcore' := hcore'.trans hcore
      have hblock : s.blockListing d b = some (dirents t'.b2 s.geo.bs s.geo.bs 0) := by
        rw [blockListing, hp, hread]
        rfl
      rw [wp_bind, wp_get, core_geo hcore', callAll_collect, listing, hblock, Option.bind_some]
      generalize dirents t'.b2 s.geo.bs s.geo.bs 0 = ds
      refine wp_mono (ih hcore' (.inr ⟨_, hread⟩)) ?_ ?_
      · rintro r _ ⟨es, hes, hr⟩
        exact ⟨ds ++ es, by rw [hes]; rfl, by rw [hr, List.append_assoc]⟩
      · intro _ hnone
        rw [hnone]
        rfl
    · rw [hinodes] at hnone
      rw [listing, blockListing, hnone]
      rfl

/-- **What is listed**, whatever is in the blocks. -/
theorem entries_eq (hv : Valid s) (hi : s.geo.IsIno d) (hl : s.Live d) (hdir : IsDir (s.inodes d)) :
    s.entries d = s.listing d (List.range (s.dirBlocks d)) := by
  have hg := hv.geo
  have hsame := loaded_ino hg hi
  have hlist : wp (listDir collect d [])
      (fun r _ => s.listing d (List.range (s.dirBlocks d)) = some r.2)
      (fun _ => s.listing d (List.range (s.dirBlocks d)) = none) s := by
    rw [listDir, wp_bind, wp_loadInode hg]
    refine ⟨fun _ => ?_, fun hn => absurd hi hn⟩
    have hcore : (s.loaded d).core = s.core := rfl
    have hb2 : (s.loaded d).b2 = s.b2 := rfl
    generalize s.loaded d = t at hsame hcore hb2 ⊢
    rw [wp_bind, wp_get, wp_bind, wp_guard, hsame.inodeSize, core_geo hcore, ← dirBlocks]
    refine ⟨fun _ => ?_, fun hn => absurd (hsame.sameMap.isDir.mpr hdir) hn⟩
    refine wp_mono (wp_listBlocks hg hi (table_of_live hl ▸ hv.flat d) hdir hcore (.inl hb2)) ?_
      fun _ => id
    rintro r _ ⟨es, hes, hr⟩
    rw [hes, hr, List.nil_append]
  rw [Fs.entries]
  rw [wp] at hlist
  generalize exec (listDir collect d []) s = r at hlist
  rcases r with ⟨_ | r, t⟩
  · exact hlist.symm
  · exact hlist.symm

namespace DirOk

variable (h : DirOk s d)

include h

theorem flat (hv : Valid s) : Flat s.geo (s.inodes d) := table_of_live h.live ▸ hv.flat d

/-- **What a directory lists** are the entries of its blocks. -/
theorem entries (hv : Valid s) : s.entries d = some (s.dirEntries d) := by
  rw [entries_eq hv h.isIno h.live h.dir]
  refine listing_of_all fun b hb => ?_
  obtain ⟨p, l, hm, hc⟩ := h.blocks b (List.mem_range.mp hb)
  have hb2 : ∀ a < s.geo.bs, memcpy s.b2 0 (s.disk p) 0 s.geo.bs a = s.disk p a := by
    intro a ha
    have hcopy := memcpy_of_lt (m := s.b2) (p := 0) (s := s.disk p) (q := 0) ha
    rwa [Nat.zero_add] at hcopy
  rw [blockListing, hm, Option.map_some, (hc.congr hb2).dirents, hc.filterMap_congr hb2,
    blockEntries_of hm hc]

end DirOk

/-- An entry of a record is an entry of the directory. -/
theorem mem_dirEntries {x : ℕ} {e : Dirent} (hb : b < s.dirBlocks d)
    (hm : mapFlat (s.inodes d) b = some p)
    (hc : Chain (s.disk p) s.geo.bs l) (hx : x ∈ l) (he : direntAt (s.disk p) x = some e) :
    e ∈ s.blockEntries d b ∧ e ∈ s.dirEntries d := by
  have hblock : e ∈ s.blockEntries d b := by
    rw [blockEntries_of hm hc]
    exact List.mem_filterMap.mpr ⟨x, hx, he⟩
  exact ⟨hblock, List.mem_flatMap.mpr ⟨b, List.mem_range.mpr hb, hblock⟩⟩

/-- An entry that is there once is in one block. -/
theorem block_unique {c : ℕ} {e : Dirent} (hnodup : (s.dirEntries d).Nodup) (hb : b < s.dirBlocks d)
    (hc : c < s.dirBlocks d) (he : e ∈ s.blockEntries d b) (he' : e ∈ s.blockEntries d c) :
    b = c := by
  by_contra hne
  have hapart := (List.nodup_flatMap.mp hnodup).2
  have : Std.Symm (Function.onFun List.Disjoint (s.blockEntries d)) := ⟨fun _ _ h => h.symm⟩
  exact hapart.forall (List.mem_range.mpr hb) (List.mem_range.mpr hc) hne he he'

/-! ## Looking up -/

/-- The callback of `lookup_abs` stops at the first entry of that name. -/
theorem callAll_findName (want : Str) (es : List Dirent) (count : ℕ) :
    (callAll (findName want) es count none).2.2 = es.find? fun e => decide (e.name = want) := by
  induction es generalizing count with
  | nil => rfl
  | cons e es ih =>
    rw [callAll, findName, List.find?_cons]
    by_cases heq : e.name = want
    · simp only [heq, if_true, decide_true]
    · simp only [heq, if_false, decide_false]
      exact ih (count + 1)

/-- **One step of `lookup_abs`** takes the first entry of that name. -/
theorem exec_lookupFrom_cons {es : List Dirent} (h : s.entries d = some es) (want : Str)
    (rest : List Str) :
    ∃ t, t.core = s.core ∧ exec (lookupFrom (want :: rest) d) s =
      exec (ofOption (es.find? fun e => decide (e.name = want)) >>= fun e => lookupFrom rest e.ino)
        t := by
  have hlist := exec_eq (exec_listDir h (findName want) none)
  have hcore := (reads_listDir (findName want) d none).exec_core s
  refine ⟨_, hcore, ?_⟩
  rw [lookupFrom, exec_bind_of_some hlist, ← callAll_findName want es 0]

/-- **What is found under a name.** -/
theorem exec_lookupFrom_single {es : List Dirent} (h : s.entries d = some es) (want : Str) :
    (exec (lookupFrom [want] d) s).1 =
      (es.find? fun e => decide (e.name = want)).map Dirent.ino := by
  obtain ⟨t, _, hex⟩ := exec_lookupFrom_cons h want []
  rw [hex]
  cases es.find? fun e => decide (e.name = want) with
  | none => rfl
  | some e => rfl

theorem DirOk.lookup (h : DirOk s d) (hv : Valid s) (want : Str) :
    (exec (lookupFrom [want] d) s).1 =
      ((s.dirEntries d).find? fun e => decide (e.name = want)).map Dirent.ino :=
  exec_lookupFrom_single (h.entries hv) want

/-! ## What stays -/

namespace Kept

variable (h : Kept s s' d)

include h

theorem dirBlocks : s'.dirBlocks d = s.dirBlocks d := by
  rw [Fs.dirBlocks, Fs.dirBlocks, h.geo, h.image.inodeSize]

theorem dirOk (hv : Valid s) (hd : DirOk s d) (hlive : s'.Live d) : DirOk s' d where
  isIno := h.isIno hd.isIno
  live := hlive
  dir := h.image.sameMap.isDir.mpr hd.dir
  magic := (h.image.r16 (by omega)).trans hd.magic
  size := by rw [h.image.inodeSize, h.dirBlocks, h.geo, hd.size]
  blocks b hb := by
    rw [h.dirBlocks] at hb
    obtain ⟨p, l, hm, hc⟩ := hd.blocks b hb
    refine ⟨p, l, (h.mapFlat (hd.flat hv) b).trans hm, ?_⟩
    rw [h.geo, h.disk hv.geo (hd.flat hv) hm]
    exact hc
  behind b hb := by
    rw [h.mapFlat (hd.flat hv)]
    exact hd.behind b (h.dirBlocks ▸ hb)

theorem blockEntries (hv : Valid s) (hd : DirOk s d) (b : ℕ) :
    s'.blockEntries d b = s.blockEntries d b := by
  rw [Fs.blockEntries, Fs.blockEntries, h.mapFlat (hd.flat hv), h.geo]
  cases hm : Fs.mapFlat (s.inodes d) b with
  | none => rfl
  | some p =>
    dsimp only
    rw [h.disk hv.geo (hd.flat hv) hm]

/-- **It lists as before.** -/
theorem dirEntries (hv : Valid s) (hd : DirOk s d) : s'.dirEntries d = s.dirEntries d := by
  rw [Fs.dirEntries, Fs.dirEntries, h.dirBlocks]
  congr 1
  funext b
  exact h.blockEntries hv hd b

theorem entries (hv : Valid s) (hv' : Valid s') (hd : DirOk s d) (hlive : s'.Live d) :
    s'.entries d = s.entries d := by
  rw [(h.dirOk hv hd hlive).entries hv', hd.entries hv, h.dirEntries hv hd]

end Kept

/-! ## A block is written -/

/-- A block of the directory has been written, and nothing else has changed. -/
structure Rewritten (s : Fs) (d b p : ℕ) (D : Bytes) (u : Fs) : Prop where
  geo : u.geo = s.geo
  stack : u.stack = s.stack
  inodes : u.inodes = s.inodes
  live : ∀ k, u.Live k ↔ s.Live k
  valid : Valid u
  /-- The block has the new bytes. -/
  self : u.disk p = D
  /-- No other block has changed. -/
  rest : ∀ c, c ≠ p → u.disk c = s.disk c
  /-- No other block of the directory is in its place. -/
  apart : ∀ c q, c ≠ b → mapFlat (s.inodes d) c = some q → q ≠ p
  /-- The other inodes are as they were. -/
  kept : ∀ k, k ≠ d → s.Live k → Kept s u k

/-- **No other place leads to the block**, so writing it changes nothing else. -/
theorem DirOk.rewritten {u : Fs} {D : Bytes} (hd : DirOk s d) (hv : Valid s)
    (hm : mapFlat (s.inodes d) b = some p) (hcore : u.core = (s.setDisk p D).core) :
    Rewritten s d b p D u := by
  have hT : s.table d = s.inodes d := table_of_live hd.live
  have hmT : mapFlat (s.table d) b = some p := hT ▸ hm
  have hmeta : ¬s.geo.IsMeta p := hv.mapFlat_not_meta hmT
  have hgeo : u.geo = s.geo := (core_geo hcore).trans rfl
  have hinodes : u.inodes = s.inodes := (core_inodes hcore).trans (inodes_setDisk hv.geo hmeta D)
  have hdisk : ∀ c, c ≠ p → u.disk c = s.disk c := by
    intro c hc
    rw [core_disk hcore]
    exact Function.update_of_ne hc _ _
  have hself : u.disk p = D := by
    rw [core_disk hcore]
    exact Function.update_self _ _ _
  have hlive : ∀ k, u.Live k ↔ s.Live k := by
    intro k
    rw [Live, Live, hgeo, hdisk _ (ne_of_not_meta hmeta Geometry.Ok.ibb_mem)]
  have htable : u.table = s.table := by
    funext k
    simp only [table, hinodes, hlive]
  refine ⟨hgeo, (of_core Fs.stack (fun _ => rfl) hcore).trans rfl, hinodes, hlive, ?_, hself, hdisk,
    fun c q hc hq he => hc ?_, fun k hk hl => ⟨hgeo, by rw [hinodes]; exact .refl _,
      fun i c hc => ?_⟩⟩
  · rw [Valid, htable]
    exact (Held.setDisk hv D hmeta).of_core hcore
  · rw [← hT, he] at hq
    exact (hv.mapFlat_inj hq hmT).2
  · refine hdisk c fun he => hk ?_
    obtain ⟨j, hj⟩ := covers_of_mapFlat (hv.flat d) hv.blocks_lt hmT
    rw [← table_of_live hl, he] at hc
    exact (Prod.mk.inj (hv.own.unique (k, i) (d, j) p hc hj)).1

namespace Rewritten

variable {u : Fs} {D : Bytes} (h : Rewritten s d b p D u)

include h

theorem dirBlocks : u.dirBlocks d = s.dirBlocks d := by
  rw [Fs.dirBlocks, Fs.dirBlocks, h.geo, h.inodes]

/-- What is in the block is what has been written. -/
theorem blockEntries (hm : mapFlat (s.inodes d) b = some p) (hc : Chain D s.geo.bs l) :
    u.blockEntries d b = l.filterMap (direntAt D) := by
  rw [blockEntries_of (p := p) (h.inodes.symm ▸ hm) (by rw [h.self, h.geo]; exact hc), h.self]

/-- The other blocks are as they were. -/
theorem blockEntries_of_ne {c : ℕ} (hc : c ≠ b) : u.blockEntries d c = s.blockEntries d c := by
  rw [Fs.blockEntries, Fs.blockEntries, h.inodes, h.geo]
  cases hq : mapFlat (s.inodes d) c with
  | none => rfl
  | some q =>
    show dirents (u.disk q) _ _ 0 = dirents (s.disk q) _ _ 0
    rw [h.rest q (h.apart c q hc hq)]

/-- The blocks are in order if what has been written is. -/
theorem inOrder (hd : DirOk s d) (hm : mapFlat (s.inodes d) b = some p) (hc : Chain D s.geo.bs l) :
    InOrder u d := by
  intro c hlt
  rw [h.dirBlocks] at hlt
  rw [h.inodes, h.geo]
  by_cases hcb : c = b
  · exact ⟨p, l, hcb ▸ hm, h.self.symm ▸ hc⟩
  · obtain ⟨q, lq, hq, hchain⟩ := hd.blocks c hlt
    exact ⟨q, lq, hq, (h.rest q (h.apart c q hcb hq)).symm ▸ hchain⟩

theorem dirOk (hd : DirOk s d) (hin : InOrder u d) : DirOk u d where
  isIno := h.geo ▸ hd.isIno
  live := (h.live d).mpr hd.live
  dir := h.inodes ▸ hd.dir
  magic := h.inodes ▸ hd.magic
  size := by rw [h.inodes, h.dirBlocks, h.geo, hd.size]
  blocks := hin
  behind c hle := by
    rw [h.inodes]
    exact hd.behind c (h.dirBlocks ▸ hle)

end Rewritten

end Fs

end Aurisys
