import Aurisys.Fs.Alter
import Aurisys.Fs.Remove

/-!
# A directory that is made

`mkdir` takes an inode and a block, stores the image of an empty directory and its block, gives the
parent a link more, and only then enters the name. When that last step gives up, the new directory
is there without a name and the parent has a link too many, but both are in order, and nothing else
has changed.

## Main definitions

* `Relinks` — a directory has a link more
* `Seeded` — there is an empty directory, and nothing leads to it
* `MakesDir` — a directory has an empty directory more

## Main results

* `wp_createDir`
-/

namespace Aurisys

open Bytes Fallible Path

namespace Fs

variable {s t u v : Fs} {b d i k p ino : ℕ} {name : Str} {img B D : Bytes}

/-! ## The image -/

section Image

variable (bs phys : ℕ)

theorem freshDir_entries : r16 (freshDir bs phys) 0x2A = 1 := by
  simp (disch := omega) only [freshDir, r16_w16_of_disjoint, r16_w32_of_disjoint, r16_w16_self]
  rfl

theorem freshDir_magic : r16 (freshDir bs phys) 0x28 = kExtMagic := by
  simp (disch := omega) only [freshDir, r16_w16_of_disjoint, r16_w32_of_disjoint, r16_w16_self]
  rfl

theorem freshDir_isDir : IsDir (freshDir bs phys) := by
  have hmode : r16 (freshDir bs phys) 0 = 0x41ED := by
    simp (disch := omega) only [freshDir, r16_w16_of_disjoint, r16_w32_of_disjoint, r16_w16_self]
    rfl
  rw [IsDir, hmode]
  decide

variable {bs phys}

theorem inodeSize_freshDir (hbs : bs < 2 ^ 32) : inodeSize (freshDir bs phys) = bs := by
  have hlow : r32 (freshDir bs phys) 4 = bs := by
    simp (disch := omega) only [freshDir, r32_w16_of_disjoint, r32_w32_of_disjoint, r32_w32_self]
    exact Nat.mod_eq_of_lt hbs
  have hhigh : r32 (freshDir bs phys) 0x6C = 0 := by
    simp (disch := omega) only [freshDir, r32_w16_of_disjoint, r32_w32_of_disjoint]
    rfl
  rw [inodeSize, hhigh, if_neg (by decide), hlow]

/-- The one extent is the block. -/
theorem extentAt_freshDir (hphys : phys < 2 ^ 32) : extentAt (freshDir bs phys) 0 = (phys, 1) := by
  have h4 : r16 (freshDir bs phys) (0x34 + 0 * 12 + 4) = 1 := by
    simp (disch := omega) only [freshDir, r16_w32_of_disjoint, r16_w16_self]
    rfl
  have h6 : r16 (freshDir bs phys) (0x34 + 0 * 12 + 6) = 0 := by
    simp (disch := omega) only [freshDir, r16_w16_of_disjoint, r16_w32_of_disjoint]
    rfl
  have h8 : r32 (freshDir bs phys) (0x34 + 0 * 12 + 8) = phys := by
    rw [freshDir, r32_w32_self, Nat.mod_eq_of_lt hphys]
  rw [extentAt, extStart, extLen, h4, h6, h8, Nat.zero_mul, Nat.zero_or]
  rfl

theorem flat_freshDir {g : Geometry} (hlt : phys < g.blocks) (hg : g.blocks < 2 ^ 32) :
    Flat g (freshDir bs phys) where
  depth := by
    simp (disch := omega) only [freshDir, r16_w16_of_disjoint, r16_w32_of_disjoint, r16_w16_self]
    rfl
  few := by
    rw [freshDir_entries]
    decide
  vacant i hi he j hj := by
    rw [freshDir_entries] at he
    simp (disch := omega) only [freshDir, w16_of_lt_or_ge, w32_of_lt_or_ge]
  flagged _ := by
    have h : r32 (freshDir bs phys) 0x20 = kExtentsFl := by
      simp (disch := omega) only [freshDir, r32_w16_of_disjoint, r32_w32_of_disjoint, r32_w32_self]
      rfl
    rw [h]
    decide
  bounds i hi := by
    rw [freshDir_entries] at hi
    obtain rfl : i = 0 := by omega
    rw [extentAt_freshDir (by omega)]
    exact ⟨Nat.one_pos, hlt⟩

theorem covers_freshDir (hphys : phys < 2 ^ 32) (hc : Covers (freshDir bs phys) i b) :
    i = 0 ∧ Run phys 1 b := by
  obtain ⟨hi, h₁, h₂⟩ := hc
  rw [freshDir_entries] at hi
  obtain rfl : i = 0 := by omega
  rw [extentAt_freshDir hphys] at h₁ h₂
  exact ⟨rfl, h₁, h₂⟩

theorem mapFlat_freshDir (hphys : phys < 2 ^ 32) (b : ℕ) :
    mapFlat (freshDir bs phys) b = if b = 0 then some phys else none := by
  have hblock : r32 (freshDir bs phys) (0x34 + 0 * 12) = 0 := by
    simp (disch := omega) only [freshDir, r32_w16_of_disjoint, r32_w32_of_disjoint, r32_w32_self]
    rfl
  rw [mapFlat, freshDir_magic, if_pos rfl, freshDir_entries, List.range_one,
    List.findSome?_singleton, extentFind,
    extentAt_freshDir hphys, hblock]
  dsimp only
  by_cases hb : b = 0
  · subst hb
    rw [if_neg (by decide), if_pos rfl, Nat.sub_self, u32, Nat.add_zero, Nat.mod_eq_of_lt hphys]
  · have hone : u32 (0 + 1) = 1 := rfl
    rw [if_neg hb, if_pos (.inr (by omega))]

end Image

/-! ## A link more -/

/-- The image of one inode has another number of links, and nothing else has changed. -/
structure Relinks (t : Fs) (d : ℕ) (v : Fs) : Prop where
  geo : v.geo = t.geo
  stack : v.stack = t.stack
  live : ∀ k, v.Live k ↔ t.Live k
  valid : Valid v
  /-- What is not metadata is as it was. -/
  disk : ∀ b, ¬t.geo.IsMeta b → v.disk b = t.disk b
  /-- Of the inode only the number of links differs. -/
  dir : SameButLinks (v.inodes d) (t.inodes d)
  /-- The other inodes are as they were. -/
  beside : Beside t (· = d) v

namespace Relinks

variable (h : Relinks t d v) (hv : Valid t)

include h hv

theorem kept (hk : k ≠ d) (hl : t.Live k) : Kept t v k := by
  refine ⟨h.geo, h.beside.inodes k hk, fun x b hc => h.disk b ?_⟩
  rw [← table_of_live hl] at hc
  exact hv.not_meta hc

/-- The map leads to the same bytes. -/
theorem block (hl : t.Live d) (b : ℕ) :
    (mapFlat (v.inodes d) b).map v.disk = (mapFlat (t.inodes d) b).map t.disk := by
  rw [h.dir.sameMap.mapFlat (table_of_live hl ▸ hv.flat d)]
  cases hp : mapFlat (t.inodes d) b with
  | none => rfl
  | some p =>
    rw [Option.map_some, Option.map_some,
      h.disk p (hv.mapFlat_not_meta (table_of_live hl ▸ hp : mapFlat (t.table d) b = some p))]

omit hv in
theorem dirBlocks : v.dirBlocks d = t.dirBlocks d := by
  rw [Fs.dirBlocks, Fs.dirBlocks, h.geo, h.dir.inodeSize]

/-- **The directory is in order as before.** -/
theorem dirOk (hd : DirOk t d) : DirOk v d where
  isIno := h.geo.symm ▸ hd.isIno
  live := (h.live d).mpr hd.live
  dir := h.dir.sameMap.isDir.mpr hd.dir
  magic := h.dir.sameMap.magic.trans hd.magic
  size := by rw [h.dir.inodeSize, h.dirBlocks, h.geo, hd.size]
  blocks b hb := by
    obtain ⟨p, l, hp, hc⟩ := hd.blocks b (h.dirBlocks ▸ hb)
    have hblock := h.block hv hd.live b
    rw [hp] at hblock
    obtain ⟨q, hq, hdisk⟩ := Option.map_eq_some_iff.mp hblock
    exact ⟨q, l, hq, by rw [hdisk, h.geo]; exact hc⟩
  behind b hb := by
    rw [h.dir.sameMap.mapFlat (hd.flat hv)]
    exact hd.behind b (h.dirBlocks ▸ hb)

theorem dirEntries (hd : DirOk t d) : v.dirEntries d = t.dirEntries d := by
  rw [Fs.dirEntries, Fs.dirEntries, h.dirBlocks]
  congr 1
  funext b
  have hblock := h.block hv hd.live b
  rw [blockEntries, blockEntries, h.geo]
  cases hp : mapFlat (t.inodes d) b with
  | none =>
    rw [hp, Option.map_none, Option.map_eq_none_iff] at hblock
    rw [hblock]
  | some p =>
    rw [hp, Option.map_some] at hblock
    obtain ⟨q, hq, hdisk⟩ := Option.map_eq_some_iff.mp hblock
    rw [hq]
    show dirents (v.disk q) _ _ 0 = dirents (t.disk p) _ _ 0
    rw [hdisk]

end Relinks

/-- **A directory gets a link more**, or less. -/
theorem wp_addLink_relinks (hv : Valid t) (hi : t.geo.IsIno d) (by_ : ℤ) :
    wp (addLink d by_) (fun _ v => Relinks t d v ∧
      r16 (v.inodes d) 0x1A = ((r16 (t.inodes d) 0x1A + by_) % 2 ^ 16).toNat)
      (fun _ => False) t := by
  have hg := hv.geo
  have hsame := loaded_ino hg hi
  rw [addLink, wp_bind, wp_loadInode hg]
  refine ⟨fun _ => ?_, fun hn => hn hi⟩
  have hcore : (t.loaded d).core = t.core := rfl
  generalize t.loaded d = t₁ at hsame hcore
  rw [wp_bind, wp_modify, hsame.r16 (by omega)]
  generalize hn : ((r16 (t.inodes d) 0x1A + by_) % 2 ^ 16).toNat = links
  have hlinks : links % 2 ^ 16 = links := Nat.mod_eq_of_lt (by omega)
  generalize hw : t₁.setIno _ = w
  have hino : w.ino = w16 t₁.ino 0x1A links := by rw [← hw, setIno_ino]
  have hcore' : w.core = t.core := by
    rw [← hw]
    exact Eq.trans rfl hcore
  have hgeo := core_geo hcore'
  have hgw : w.geo.Ok := hgeo.symm ▸ hg
  have hiw : w.geo.IsIno d := hgeo.symm ▸ hi
  rw [wp_storeInode hgw hiw]
  have hbeside : Beside t (· = d) (w.stored d) :=
    (Beside.of_core hcore').trans (.stored hgw hiw rfl)
  have himg : Same ((w.stored d).inodes d) (w16 t₁.ino 0x1A links) := by
    have hstored := inodes_stored hgw hiw d
    rwa [Function.update_self, hino] at hstored
  have hlive : ∀ k, (w.stored d).Live k ↔ t.Live k := fun k => by
    rw [live_stored hgw hiw, core_live hcore']
  have hdir : SameButLinks ((w.stored d).inodes d) (t.inodes d) := by
    intro a ha h₁ h₂
    rw [himg a ha, w16_of_lt_or_ge (by omega), hsame a ha]
  have hstack : w.stack = t.stack := Fs.of_core Fs.stack (fun _ => rfl) hcore'
  refine ⟨⟨hgeo, hstack, hlive, ?_, fun b hb => ?_, hdir, hbeside⟩, ?_⟩
  · have hheld : Held (w.stored d) t.table Nothing := (Held.of_core hv hcore').stored hiw
    refine hheld.congr fun k => ?_
    rw [table, table]
    by_cases hl : t.Live k
    · rw [if_pos hl, if_pos ((hlive k).mpr hl)]
      by_cases hk : k = d
      · exact hk ▸ hdir.sameMap
      · exact (hbeside.inodes k hk).sameMap
    · rw [if_neg hl, if_neg fun hn => hl ((hlive k).mp hn)]
      exact .refl _
  · rw [stored_disk w d (hgeo.symm ▸ fun he => hb (he ▸ hg.slotBlock_meta hi)), core_disk hcore']
  · rw [himg.r16 (by omega), r16_w16_self, hlinks]

/-! ## An empty directory -/

theorem Made.of_core (h : Made s k img t) (hcore : u.core = t.core) : Made s k img u where
  isIno := h.isIno
  free := h.free
  geo := (core_geo hcore).trans h.geo
  stack := (Fs.of_core Fs.stack (fun _ => rfl) hcore).trans h.stack
  live i hi := (core_live hcore).trans (h.live i hi)
  grows i hl := (core_live hcore).mpr (h.grows i hl)
  desc := by rw [core_disk hcore, h.desc]
  valid := h.valid.of_core hcore
  kept i hl := by
    have hk := h.kept i hl
    refine ⟨(core_geo hcore).trans hk.geo, core_inodes hcore ▸ hk.image, fun x b hc => ?_⟩
    rw [core_disk hcore, hk.blocks x b hc]
  image := core_inodes hcore ▸ h.image

/-- A block is written that was free and holds no metadata. -/
theorem Made.setDisk (h : Made s k img t) (hv : Valid s) (hp : ¬s.geo.IsMeta p) (hfree : ¬s.Used p)
    (D : Bytes) :
    Made s k img (t.setDisk p D) := by
  have hpt : ¬t.geo.IsMeta p := h.geo.symm ▸ hp
  have hinodes := inodes_setDisk h.valid.geo hpt D
  have hlive : ∀ i, (t.setDisk p D).Live i ↔ t.Live i := fun i => by
    have hibb : (t.setDisk p D).disk t.geo.ibb = t.disk t.geo.ibb :=
      Function.update_of_ne (ne_of_not_meta hpt Geometry.Ok.ibb_mem) _ _
    exact iff_of_eq (congrArg (fun d : Bytes => d.bit (i - 1) = true) hibb)
  refine ⟨h.isIno, h.free, h.geo, h.stack, fun i hi => (hlive i).trans (h.live i hi),
    fun i hl => (hlive i).mpr (h.grows i hl), ?_, ?_, fun i hl => ?_,
    by rw [hinodes]; exact h.image⟩
  · exact (Function.update_of_ne (ne_of_not_meta hp Geometry.Ok.desc_mem) _ _).trans h.desc
  · refine (Held.setDisk h.valid D hpt).congr fun i => ?_
    rw [table, table, hinodes]
    by_cases hl : t.Live i
    · rw [if_pos hl, if_pos ((hlive i).mpr hl)]
      exact .refl _
    · rw [if_neg hl, if_neg fun hn => hl ((hlive i).mp hn)]
      exact .refl _
  · have hk := h.kept i hl
    refine ⟨hk.geo, by rw [hinodes]; exact hk.image, fun x b hc => ?_⟩
    have hne : b ≠ p := by
      rintro rfl
      exact hfree (hv.own.own_used (i, x) b (table_of_live hl ▸ hc))
    exact (Function.update_of_ne hne _ _).trans (hk.blocks x b hc)

/-- There is an empty directory that nothing leads to. Its parent to be has the entries it had. -/
structure Seeded (s : Fs) (d k : ℕ) (t : Fs) : Prop where
  isIno : s.geo.IsIno k
  free : ¬s.Live k
  geo : t.geo = s.geo
  stack : t.stack = s.stack
  live : ∀ i, s.geo.IsIno i → (t.Live i ↔ s.Live i ∨ i = k)
  grows : ∀ i, s.Live i → t.Live i
  valid : Valid t
  kept : ∀ i, i ≠ d → s.Live i → Kept s t i
  parent : DirOk t d ∧ t.dirEntries d = s.dirEntries d
  empty : DirOk t k ∧ t.dirEntries k = emptyDir k d
  tame : ∀ i, s.geo.IsIno i → ¬s.Live i → i ≠ k → IsBlank (t.inodes i)

/-- The directory has an empty directory more. -/
structure MakesDir (s : Fs) (d : ℕ) (name : Str) (k : ℕ) (u : Fs) : Prop where
  /-- There is a new inode, with an entry. -/
  created : ∃ img, Created s d ⟨k, name, 2⟩ img u
  /-- It is a directory with the two entries that all have. -/
  empty : DirOk u k ∧ u.dirEntries k = emptyDir k d
  /-- What is free is blank. -/
  tame : ∀ i, s.geo.IsIno i → ¬s.Live i → i ≠ k → IsBlank (u.inodes i)

/-- **The new directory is in order**: it has one block, with the two entries. -/
theorem Made.emptyDir_of {parent : ℕ} (h : Made s k (freshDir s.geo.bs p) t) (hp : p < s.geo.blocks)
    (hchain : Chain (t.disk p) s.geo.bs [0, 12])
    (hents : [0, 12].filterMap (direntAt (t.disk p)) = emptyDir k parent) :
    DirOk t k ∧ t.dirEntries k = emptyDir k parent := by
  have hg : s.geo.Ok := h.geo ▸ h.valid.geo
  have hbs := hg.bs_le
  have hbs₀ := hg.bs_pos
  have hblocks := hg.blocks_le
  have hflat : Flat s.geo (freshDir s.geo.bs p) := flat_freshDir hp (by omega)
  have hsize : inodeSize (t.inodes k) = s.geo.bs := by
    rw [h.image.inodeSize, inodeSize_freshDir (by omega)]
  have hone : t.dirBlocks k = 1 := by
    rw [dirBlocks, hsize, h.geo, Geometry.blocksOf, u32, Nat.mod_eq_of_lt (by omega),
      Nat.add_sub_assoc hbs₀,
      Nat.add_div_left _ hbs₀, Nat.div_eq_of_lt (by omega)]
  have hmap : ∀ b, mapFlat (t.inodes k) b = if b = 0 then some p else none := fun b => by
    rw [h.image.sameMap.mapFlat hflat, mapFlat_freshDir (by omega)]
  have hzero : mapFlat (t.inodes k) 0 = some p := (hmap 0).trans (if_pos rfl)
  have hchain' : Chain (t.disk p) t.geo.bs [0, 12] := h.geo.symm ▸ hchain
  refine ⟨⟨h.geo.symm ▸ h.isIno, (h.live k h.isIno).mpr (.inr rfl), ?_, ?_, ?_,
    fun b hb => ?_, fun b hb => ?_⟩, ?_⟩
  · exact h.image.sameMap.isDir.mpr (freshDir_isDir _ _)
  · exact (h.image.r16 (by omega)).trans (freshDir_magic _ _)
  · rw [hsize, hone, h.geo, Nat.one_mul]
  · obtain rfl : b = 0 := by omega
    exact ⟨p, [0, 12], hzero, hchain'⟩
  · rw [hmap, if_neg (by omega)]
  · rw [dirEntries, hone, List.range_one, List.flatMap_singleton,
      blockEntries_of hzero hchain', hents]

/-- **An empty directory is made.** -/
theorem Made.seeded (h : Made s k (freshDir s.geo.bs p) t) (hbeside : Beside s (· = k) t)
    (hv : Valid s)
    (hb : Blank s) (hd : DirOk s d) (hempty : DirOk t k ∧ t.dirEntries k = emptyDir k d)
    (hr : Relinks t d v) :
    Seeded s d k v := by
  have hne : k ≠ d := fun he => h.free (he ▸ hd.live)
  have hlive₁ := h.grows d hd.live
  have hkd := h.kept d hd.live
  have hd₁ := hkd.dirOk hv hd hlive₁
  have hkk := hr.kept h.valid hne hempty.1.live
  refine ⟨h.isIno, h.free, hr.geo.trans h.geo, hr.stack.trans h.stack,
    fun i hi => (hr.live i).trans (h.live i hi),
    fun i hl => (hr.live i).mpr (h.grows i hl), hr.valid, fun i hi hl => ?_,
    ⟨hr.dirOk h.valid hd₁, ?_⟩,
    ⟨hkk.dirOk h.valid hempty.1 ((hr.live k).mpr hempty.1.live), ?_⟩, fun i hi hl hik => ?_⟩
  · exact (h.kept i hl).trans (hr.kept h.valid hi (h.grows i hl)) (table_of_live hl ▸ hv.flat i)
  · rw [hr.dirEntries h.valid hd₁, hkd.dirEntries hv hd]
  · rw [hkk.dirEntries h.valid hempty.1, hempty.2]
  · have hid : i ≠ d := fun he => hl (he ▸ hd.live)
    exact (hb i hi hl).of_same ((hr.beside.inodes i hid).trans (hbeside.inodes i hik))

namespace Seeded

variable (h : Seeded s d k t)

include h

/-- **The name is entered.** -/
theorem added (ha : Added t d ⟨k, name, 2⟩ u) (hbeside : Beside t (· = d) u)
    (hv : Valid s) (hl : s.Live d) :
    MakesDir s d name k u := by
  have hne : k ≠ d := fun he => h.free (he ▸ hl)
  have hkk := ha.kept k hne h.empty.1.live
  obtain ⟨l₁, l₂, hold, hents⟩ := ha.entries
  refine ⟨⟨u.inodes k, h.isIno, h.free, ha.geo.trans h.geo, ha.stack.trans h.stack,
    fun i hi => (ha.live i).trans (h.live i hi), fun i hli => (ha.live i).mpr (h.grows i hli),
    ha.valid,
    fun i hi hli => ?_, ha.dirOk, ⟨l₁, l₂, h.parent.2 ▸ hold, hents⟩, .refl _⟩,
    ⟨hkk.dirOk h.valid h.empty.1 ((ha.live k).mpr h.empty.1.live), ?_⟩, fun i hi hli hik => ?_⟩
  · exact (h.kept i hi hli).trans (ha.kept i hi (h.grows i hli)) (table_of_live hli ▸ hv.flat i)
  · rw [hkk.dirEntries h.valid h.empty.1, h.empty.2]
  · have hid : i ≠ d := fun he => hli (he ▸ hl)
    exact (h.tame i hi hli hik).of_same (hbeside.inodes i hid)

/-- Nothing that was there is harmed when the name cannot be entered. -/
theorem unharmed (hu : Unharmed t u) (hbeside : Beside t (· = d) u) (hv : Valid s) (hl : s.Live d) :
    Seeded s d k u := by
  have hne : k ≠ d := fun he => h.free (he ▸ hl)
  have hkk := hu.kept k h.empty.1.live
  have hkd := hu.kept d h.parent.1.live
  refine ⟨h.isIno, h.free, hu.geo.trans h.geo, hu.stack.trans h.stack, fun i hi => ?_,
    fun i hli => hu.live i (h.grows i hli), hu.valid, fun i hi hli => ?_,
    ⟨hkd.dirOk h.valid h.parent.1 (hu.live d h.parent.1.live), ?_⟩,
    ⟨hkk.dirOk h.valid h.empty.1 (hu.live k h.empty.1.live), ?_⟩, fun i hi hli hik => ?_⟩
  · rw [← h.live i hi]
    by_cases hid : i = d
    · subst hid
      exact ⟨fun _ => h.parent.1.live, fun hl' => hu.live i hl'⟩
    · exact hbeside.live i (h.geo.symm ▸ hi) hid
  · exact (h.kept i hi hli).trans (hu.kept i (h.grows i hli)) (table_of_live hli ▸ hv.flat i)
  · rw [hkd.dirEntries h.valid h.parent.1, h.parent.2]
  · rw [hkk.dirEntries h.valid h.empty.1, h.empty.2]
  · have hid : i ≠ d := fun he => hli (he ▸ hl)
    exact (h.tame i hi hli hik).of_same (hbeside.inodes i hid)

end Seeded

/-- Settling the counts does not matter. -/
theorem MakesDir.settled (h : MakesDir s d name k u) (hv : Valid s) (hu : Settled u v) :
    MakesDir s d name k v := by
  obtain ⟨img, hc⟩ := h.created
  have hkk := hu.kept hc.valid h.empty.1.live
  have hg := hc.valid.geo
  refine ⟨⟨img, hc.settled hv hu⟩,
    ⟨hkk.dirOk hc.valid h.empty.1 ((hu.live hg).mpr h.empty.1.live), ?_⟩,
    fun i hi hli hik => ?_⟩
  · rw [hkk.dirEntries hc.valid h.empty.1, h.empty.2]
  · rw [hu.inodes hg]
    exact h.tame i hi hli hik

/-- **`mkdir` makes a directory.** -/
theorem wp_createDir (hv : Valid s) (hd : DirOk s d) (hname : DirentName name) (hb : Blank s) :
    wp (createDir d name) (fun _ u => ∃ k, MakesDir s d name k u)
      (fun u => (Unharmed s u ∧ Tame s u) ∨ (∃ k, Seeded s d k u) ∨
        ∃ k, MakesDir s d name k u) s := by
  have hg := hv.geo
  rw [createDir, wp_bind]
  refine wp_allocInode hg (fun i hnext => ?_) fun _ => .inl ⟨hv.unharmed rfl, .of_inodes hb rfl⟩
  obtain ⟨hino, hfree⟩ := nextInode_spec hg hnext
  have hle := hg.inodes.2
  have hbs := hg.bs_le
  have hbs' : 1024 ≤ s.geo.bs := by rcases hg.bs with h | h | h <;> omega
  have hheld : Held (s.inodeTaken i) s.table Nothing :=
    Held.frame hv rfl rfl (inodeTaken_of_ne hg hnext hg.bbb_ne_ibb)
  have hstock : Stock (s.inodeTaken i) s.table 0 Nothing 0 (s.inodeTaken i) := hheld.stock 0
  have hframed : Framed (s.inodeTaken i) (s.inodeTaken i) := ⟨rfl, fun _ _ _ => rfl⟩
  have hg₁ : (s.inodeTaken i).geo.Ok := hg
  rw [wp_bind]
  refine wp_allocBlocks hg₁ (fun p hrun => ?_) fun _ => ?_
  · have htaken := hstock.taken hrun
    obtain ⟨-, hlt, hclear⟩ := hheld.freeRun hrun
    have hlt : p < s.geo.blocks := hlt
    have hblocks := hg.blocks_le
    have hpmeta : ¬s.geo.IsMeta p := htaken.table.spare_not_meta ⟨le_rfl, Nat.lt_succ_self p⟩
    have hpfree : ¬s.Used p := by
      have hfree₁ := hclear p le_rfl (Nat.lt_succ_self p)
      have hbbb : (s.inodeTaken i).disk s.geo.bbb = s.disk s.geo.bbb :=
        inodeTaken_of_ne hg hnext hg.bbb_ne_ibb
      exact fun hu => hfree₁ ((iff_of_eq (congrArg (fun d : Bytes => d.bit p = true) hbbb)).mpr hu)
    generalize ht : (s.inodeTaken i).taken p 1 = t at htaken
    have hgeo : t.geo = s.geo := by rw [← ht]; rfl
    have hft : Framed (s.inodeTaken i) t := by
      refine ⟨by rw [← ht]; rfl, fun b hb hne => ?_⟩
      rw [← ht, taken_disk (s := s.inodeTaken i) (hv.le_bits hlt), Function.update_of_ne hne]
    -- The image with the block in it is a draft for the new inode.
    have hdraft : Draft (s.inodeTaken i) s.table 0 Nothing (0 + (1 : ℕ))
        (t.setIno (freshDir s.geo.bs p)) := by
      refine ⟨htaken.forget.of_core rfl, ?_, fun x b hc => .inr ?_⟩
      · have hflat : Flat t.geo (freshDir s.geo.bs p) := hgeo.symm ▸ flat_freshDir hlt (by omega)
        have hadopt := htaken.table.adopt (j := 0) (n := 0) hflat fun x b hc =>
          .inr (covers_freshDir (by omega) hc)
        exact hadopt.of_core rfl
      · exact htaken.spare b (covers_freshDir (by omega) hc).2
    rw [wp_bind, wp_modify, hgeo]
    have hframed₁ : Framed (s.inodeTaken i) (t.setIno (freshDir s.geo.bs p)) :=
      ⟨hft.stack, hft.disk⟩
    obtain ⟨hmade, hbeside⟩ := hdraft.made_of hframed₁ hv hnext
    rw [setIno_ino] at hmade
    have hgeo₁ : (t.setIno (freshDir s.geo.bs p)).geo = s.geo := hgeo
    generalize t.setIno (freshDir s.geo.bs p) = t₁ at hmade hbeside hgeo₁
    rw [wp_bind, wp_storeInode (hgeo₁.symm ▸ hg) (hgeo₁.symm ▸ hino)]
    generalize t₁.stored (i + 1) = t₂ at hmade hbeside
    rw [wp_bind, wp_setWriteB2, hmade.geo]
    refine ⟨fun _ => ?_, fun hn => absurd hlt hn⟩
    have hi₃₂ : 0 < i + 1 ∧ i + 1 < 2 ^ 32 := ⟨hino.1, by have := hino.2; omega⟩
    have hd₃₂ : 0 < d ∧ d < 2 ^ 32 := ⟨hd.isIno.1, by have := hd.isIno.2; omega⟩
    obtain ⟨hchain, hents⟩ := freshDirBlock_chain ⟨hbs', hbs⟩ hi₃₂ hd₃₂ t₂.b2
    generalize freshDirBlock t₂.b2 s.geo.bs (i + 1) d = B at hchain hents
    rw [putBlock_eq]
    generalize hD : memcpy ((t₂.setB2 B).disk p) 0 B 0 (t₂.setB2 B).geo.bs = D
    have hsame : ∀ a < s.geo.bs, D a = B a := by
      intro a ha
      have hgeo₂ : (t₂.setB2 B).geo = s.geo := hmade.geo
      rw [← hD, hgeo₂, memcpy_zero_of_lt ha, Nat.zero_add]
    have hmade₃ : Made s (i + 1) (freshDir s.geo.bs p) ((t₂.setB2 B).setDisk p D) :=
      (hmade.of_core (u := t₂.setB2 B) rfl).setDisk hv hpmeta hpfree D
    have hbeside₃ : Beside s (· = i + 1) ((t₂.setB2 B).setDisk p D) :=
      (hbeside.trans (.of_core (u := t₂.setB2 B) rfl)).trans
        (.setDisk (s := t₂.setB2 B) (hmade.geo.symm ▸ hg) (show ¬t₂.geo.IsMeta p
          from hmade.geo.symm ▸ hpmeta) D)
    have hself : ((t₂.setB2 B).setDisk p D).disk p = D := Function.update_self _ _ _
    generalize (t₂.setB2 B).setDisk p D = t₃ at hmade₃ hbeside₃ hself
    have hempty : DirOk t₃ (i + 1) ∧ t₃.dirEntries (i + 1) = emptyDir (i + 1) d :=
      hmade₃.emptyDir_of hlt (hself.symm ▸ hchain.congr hsame)
        (by rw [hself, hchain.filterMap_congr hsame, hents])
    rw [wp_bind]
    refine wp_mono (wp_addLink_relinks hmade₃.valid (hmade₃.geo.symm ▸ hd.isIno) 1)
      ?_ fun _ => False.elim
    rintro ⟨⟩ v ⟨hr, -⟩
    have hseeded := hmade₃.seeded hbeside₃ hv hb hd hempty hr
    rw [wp_bind]
    refine wp_mono (wp_and (wp_dirAddEntry_beside (P := (· = d)) hseeded.valid
      hseeded.parent.1.live rfl rfl)
      (hseeded.parent.1.wp_dirAddEntry hseeded.valid hname hi₃₂ (by decide) rfl)) ?_ ?_
    · rintro ⟨⟩ w ⟨hbw, -, hadded⟩
      have hmakes := hseeded.added hadded hbw hv hd.live
      have hgw : w.geo.Ok := hadded.valid.geo
      exact wp_settle hgw (fun x hx => ⟨i + 1, hmakes.settled hv hx⟩)
        fun _ x hx => .inr (.inr ⟨i + 1, hmakes.settled hv hx⟩)
    · rintro w ⟨hbw, -, hu⟩
      exact .inr (.inl ⟨i + 1, hseeded.unharmed hu hbw hv hd.live⟩)
  · obtain ⟨hu, hinodes⟩ := hstock.wasted hv hnext hframed hb
    have hu' := hu.valid.unharmed (u := (s.inodeTaken i).read1 s.geo.bbb) rfl
    exact ⟨.inl ⟨hu, .of_inodes hb hinodes⟩, .inl ⟨hu.trans hv hu', .of_inodes hb hinodes⟩⟩

end Fs

end Aurisys
