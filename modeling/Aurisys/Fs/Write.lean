import Aurisys.Fs.Dirs
import Aurisys.Fs.Pour

/-!
# What `write_at` leaves

A call that does not begin behind the end of the file goes through its range with the loop, stores
the image and settles the counts. It is seen here from the state it began with: which bytes of the
file are those of the buffer, that every other byte of it is as it was, and that no other inode in
use has lost anything.

A call that gives up has stored nothing, but it may have changed blocks that the file has, and it
may have taken blocks for the file that the file does not get.

## Main definitions

* `Grew` — an image has what another had, and blocks that were free
* `writeTail` — the part of `write_at` behind the filling of the gap
* `Written` — what a call that succeeds leaves
* `Leaves` — what a call that fails does

## Main results

* `wp_writeTail`
* `wp_writeAt_inside`
-/

namespace Aurisys

open Bytes Fallible

namespace Fs

/-- From `s` to `s₁` blocks have been taken, from the image `img` to `img₁` they have gone into
it. -/
structure Grew (s : Fs) (T : ℕ → Bytes) (j : ℕ) (img : Bytes) (s₁ : Fs) (img₁ : Bytes) : Prop where
  /-- Each block has one owner still. -/
  held : Held s₁ (Function.update T j img₁) Nothing
  /-- Nothing but the disk and the hint has changed, -/
  core : s₁.core = { (s.withDisk s₁.disk).core with hint := s₁.hint }
  /-- and of the disk only the bitmap. -/
  disk : ∀ b, b ≠ s.geo.bbb → s₁.disk b = s.disk b
  /-- No block has been given back. -/
  used : ∀ b, s.Used b → s₁.Used b
  /-- What the image led to it leads to. -/
  map : ∀ {b p}, mapFlat img b = some p → mapFlat img₁ b = some p
  /-- The image has changed in its block count and its extents only. -/
  same : ∀ a, a < 0x1C ∨ 0x20 ≤ a ∧ a < 0x2A ∨ 100 ≤ a → img₁ a = img a

variable {s s₁ s' t t' u : Fs} {T : ℕ → Bytes} {img img₁ buf : Bytes}
  {ino j off len n size d first k : ℕ}

/-! ## Growing -/

theorem Grew.refl (hheld : Held s (Function.update T j img) Nothing) : Grew s T j img s img where
  held := hheld
  core := rfl
  disk _ _ := rfl
  used _ := id
  map := id
  same _ _ := rfl

/-- **A run has been granted.** -/
theorem Grew.granted (hheld : Held s (Function.update T j img) Nothing)
    (hmagic : r16 img 0x28 = kExtMagic) (ha : Accepts s img size off len d first) :
    Grew s T j img (s.taken first (needed s.geo off len d))
      (extended s.geo img off len d first) where
  held := held_extended hheld ha
  core := rfl
  disk b hb := by
    rw [taken_disk (hheld.le_bits (extended_run hheld ha).2), Function.update_of_ne hb]
  used := (Grows.taken hheld.geo (extended_run hheld ha).2).used
  map := extended_of_some hheld ha hmagic
  same a hcase := by
    have he := ha.entries
    rw [extended, w32_of_lt_or_ge (by omega)]
    exact addExtent_apply img _ _ first (by omega) (by omega)

/-- The first block of the run was free and is in use. -/
theorem granted_used (hheld : Held s (Function.update T j img) Nothing)
    (ha : Accepts s img size off len d first) : first < s.geo.blocks ∧ ¬s.Used first ∧
      (s.taken first (needed s.geo off len d)).Used first := by
  obtain ⟨hpos, hle, hclear⟩ := hheld.freeRun ha.run
  have hdisk := taken_disk (s := s) (hheld.le_bits hle)
  refine ⟨by omega, hclear first le_rfl (by omega), ?_⟩
  rw [Used, hdisk]
  change (Function.update s.disk s.geo.bbb _ s.geo.bbb).bit first = true
  rw [Function.update_self, bit_setBits, Bool.or_eq_true, decide_eq_true_eq]
  exact .inl ⟨le_rfl, by omega⟩

namespace Grew

variable (h : Grew s T j img s₁ img₁)

include h

theorem geo : s₁.geo = s.geo := by
  have hgeo := congrArg Fs.geo h.core
  exact hgeo

theorem flat : Flat s.geo img₁ := by
  have := h.held.flat j
  rwa [Function.update_self, h.geo] at this

theorem r16 {p : ℕ} (hp : p + 2 ≤ 0x1C ∨ 0x20 ≤ p ∧ p + 2 ≤ 0x2A ∨ 100 ≤ p) :
    r16 img₁ p = r16 img p :=
  r16_congr fun _ _ => h.same _ (by omega)

theorem r32 {p : ℕ} (hp : p + 4 ≤ 0x1C ∨ 0x20 ≤ p ∧ p + 4 ≤ 0x2A ∨ 100 ≤ p) :
    r32 img₁ p = r32 img p :=
  r32_congr fun _ _ => h.same _ (by omega)

theorem isFile : IsFile img₁ ↔ IsFile img := by rw [IsFile, IsFile, h.r16 (by omega)]

theorem inodeSize : inodeSize img₁ = inodeSize img := by
  rw [Fs.inodeSize, Fs.inodeSize, h.r32 (by omega), h.r32 (by omega)]

/-- What the new map leads to holds no metadata. -/
theorem not_meta {b p : ℕ} (hp : mapFlat img₁ b = some p) : ¬s.geo.IsMeta p := by
  rw [← h.geo]
  have hp' : mapFlat (Function.update T j img₁ j) b = some p := by
    rwa [Function.update_self]
  exact h.held.mapFlat_not_meta hp'

/-- No other image has a block the new map leads to. -/
theorem not_covers {i b p : ℕ} (hk : k ≠ j) (hp : mapFlat img₁ b = some p) : ¬Covers (T k) i p := by
  intro hc
  obtain ⟨i', hc'⟩ := covers_of_mapFlat h.flat (h.geo ▸ h.held.blocks_lt) hp
  have h₁ : Covers (Function.update T j img₁ j) i' p := by rwa [Function.update_self]
  have h₂ : Covers (Function.update T j img₁ k) i p := by rwa [Function.update_of_ne hk]
  exact hk (Prod.mk.inj (h.held.own.unique (k, i) (j, i') p h₂ h₁)).1

/-! ## Bytes that have been poured -/

variable (hp : Poured s₁ img₁ buf off n t)

include hp

theorem poured_geo : t.geo = s.geo := hp.geo.trans h.geo

/-- What the new map does not lead to is as it was. -/
theorem poured_disk {p : ℕ} (hne : p ≠ s.geo.bbb) (hm : ∀ b, mapFlat img₁ b ≠ some p) :
    t.disk p = s.disk p := (hp.disk hm).trans (h.disk p hne)

theorem poured_single {b : ℕ} (hb : b ∈ s.geo.singles) (hne : b ≠ s.geo.bbb) :
    t.disk b = s.disk b :=
  h.poured_disk hp hne fun _ hm => h.not_meta hm (Geometry.Ok.single_meta hb)

theorem poured_bbb : t.disk s.geo.bbb = s₁.disk s.geo.bbb :=
  hp.disk fun _ hm => h.not_meta hm (Geometry.Ok.single_meta Geometry.Ok.bbb_mem)

theorem poured_used {b : ℕ} : t.Used b ↔ s₁.Used b := by
  rw [Used, Used, h.poured_geo hp, h.geo, h.poured_bbb hp]

theorem poured_live (hg : s.geo.Ok) {k : ℕ} : t.Live k ↔ s.Live k := by
  rw [Live, Live, h.poured_geo hp, h.poured_single hp Geometry.Ok.ibb_mem hg.bbb_ne_ibb.symm]

theorem poured_inodes (hg : s.geo.Ok) : t.inodes = s.inodes :=
  inodes_congr (h.poured_geo hp) fun _ hi => h.poured_disk hp
    (hg.slotBlock_ne hi Geometry.Ok.bbb_mem)
    fun _ hm => h.not_meta hm (hg.slotBlock_meta hi)

/-- The blocks of the other images are as they were. -/
theorem poured_covers {i b : ℕ} (hheld : Held s T Nothing) (hk : k ≠ j) (hc : Covers (T k) i b) :
    t.disk b = s.disk b := by
  refine h.poured_disk hp ?_ fun _ hm => h.not_covers hk hm hc
  rintro rfl
  exact hheld.not_meta hc (Geometry.Ok.single_meta Geometry.Ok.bbb_mem)

theorem poured_held : Held t (Function.update T j img₁) Nothing := by
  refine h.held.frame hp.geo ((of_core Fs.hint (fun _ => rfl) hp.core).trans rfl) ?_
  rw [h.geo]
  exact h.poured_bbb hp

/-- **A byte in the range** is the one of the buffer. -/
theorem poured_fresh {i : ℕ} (hi : i < n) (hm : mapFlat img₁ (place off i / s.geo.bs) ≠ none) :
    t.byteAt img₁ (place off i) = some (buf i) := by
  obtain ⟨p, hm⟩ := Option.ne_none_iff_exists'.mp hm
  have hfresh := hp.fresh i hi p
  rw [h.geo] at hfresh
  rw [byteAt, h.poured_geo hp, hm, Option.map_some, hfresh hm]

/-- **Any other byte** is as it was. -/
theorem poured_old {q : ℕ} {c : UInt8} (hq : ∀ i < n, place off i ≠ q)
    (hc : s.byteAt img q = some c) : t.byteAt img₁ q = some c := by
  obtain ⟨p, hm, hc⟩ := Option.map_eq_some_iff.mp hc
  have hm₁ := h.map hm
  rw [byteAt, h.poured_geo hp, hm₁, Option.map_some, ← hc]
  have hself : Function.update T j img₁ j = img₁ := Function.update_self _ _ _
  have hold := hp.old p (q % s.geo.bs) fun i hi hi' hmod => by
    rw [h.geo] at hi' hmod
    rw [← hself] at hi' hm₁
    have hdiv := (h.held.mapFlat_inj hi' hm₁).2
    have h₁ := Nat.div_add_mod (place off i) s.geo.bs
    have h₂ := Nat.div_add_mod q s.geo.bs
    rw [hdiv, hmod] at h₁
    exact hq i hi (h₁.symm.trans h₂)
  rw [hold, h.disk p fun he => h.not_meta hm₁ (he ▸ Geometry.Ok.single_meta Geometry.Ok.bbb_mem)]

end Grew

theorem u32_lt (x : ℕ) : u32 x < 2 ^ 32 := Nat.mod_lt _ (by decide)

theorem stored_geo (s : Fs) (ino : ℕ) : (s.stored ino).geo = s.geo := rfl

theorem live_stored (hg : s.geo.Ok) (hi : s.geo.IsIno ino) : (s.stored ino).Live k ↔ s.Live k := by
  have h : (s.stored ino).disk s.geo.ibb = s.disk s.geo.ibb :=
    stored_single hg hi Geometry.Ok.ibb_mem
  exact iff_of_eq (congrArg (fun d : Bytes => d.bit (k - 1) = true) h)

theorem used_stored (hg : s.geo.Ok) (hi : s.geo.IsIno ino) : (s.stored ino).Used k ↔ s.Used k := by
  have h : (s.stored ino).disk s.geo.bbb = s.disk s.geo.bbb :=
    stored_single hg hi Geometry.Ok.bbb_mem
  exact iff_of_eq (congrArg (fun d : Bytes => d.bit k = true) h)

/-! ## Settling -/

/-- At most the descriptor, the superblock and the counts have changed. -/
structure Settled (s u : Fs) : Prop where
  geo : u.geo = s.geo
  stack : u.stack = s.stack
  ino : u.ino = s.ino
  hint : u.hint = s.hint
  disk : ∀ b, b ≠ s.geo.descBlock → b ≠ s.geo.sbBlock → u.disk b = s.disk b

namespace Settled

theorem refl (s : Fs) : Settled s s := ⟨rfl, rfl, rfl, rfl, fun _ _ _ => rfl⟩

theorem read1 (s : Fs) (b : ℕ) : Settled s (s.read1 b) := ⟨rfl, rfl, rfl, rfl, fun _ _ _ => rfl⟩

theorem committed (s : Fs) (ub ui ud : ℤ) : Settled s (s.committed ub ui ud) :=
  ⟨rfl, rfl, rfl, rfl, fun _ => committed_disk s ub ui ud⟩

variable (h : Settled s u) (hg : s.geo.Ok)

include h hg

theorem bbb : u.disk s.geo.bbb = s.disk s.geo.bbb :=
  h.disk _ hg.desc_ne_bbb.symm (hg.sb_ne (by simp)).symm

theorem ibb : u.disk s.geo.ibb = s.disk s.geo.ibb :=
  h.disk _ hg.desc_ne_ibb.symm (hg.sb_ne (by simp)).symm

theorem used {b : ℕ} : u.Used b ↔ s.Used b := by rw [Used, Used, h.geo, h.bbb hg]

theorem live {k : ℕ} : u.Live k ↔ s.Live k := by rw [Live, Live, h.geo, h.ibb hg]

theorem inodes : u.inodes = s.inodes :=
  inodes_congr h.geo fun _ hi => h.disk _ (hg.slotBlock_ne hi Geometry.Ok.desc_mem)
    (hg.slotBlock_ne hi Geometry.Ok.sb_mem)

omit hg in
theorem disk_of_not_meta {b : ℕ} (hb : ¬s.geo.IsMeta b) : u.disk b = s.disk b :=
  h.disk b (ne_of_not_meta hb Geometry.Ok.desc_mem).symm (ne_of_not_meta hb Geometry.Ok.sb_mem).symm

omit hg in
theorem held (hh : Held s T Nothing) : Held u T Nothing := hh.frame h.geo h.hint (h.bbb hh.geo)

end Settled

/-- **Settling** does not matter, whether it fails or not. -/
theorem wp_settle {ub ui ud : ℤ} {Q : Unit → Fs → Prop} {E : Fs → Prop} (hg : s.geo.Ok)
    (hQ : ∀ u, Settled s u → Q ⟨⟩ u) (hE : ¬(ub = 0 ∧ ui = 0 ∧ ud = 0) → ∀ u, Settled s u → E u) :
    wp (commitCounts ub ui ud) Q E s := by
  by_cases hz : ub = 0 ∧ ui = 0 ∧ ud = 0
  · rw [commitCounts, wp_ite]
    exact ⟨fun _ => hQ s (.refl s), fun hn => absurd hz hn⟩
  · exact wp_commitCounts hg (fun _ => hQ s (.refl s)) (fun _ _ => hQ _ (.committed s ub ui ud))
      fun _ => hE hz _ (.read1 s _)

/-! ## The free blocks -/

/-- How many blocks are free, as the descriptor has it. -/
def countedFree (s : Fs) : ℕ := Bytes.r16 (s.disk s.geo.descBlock) 0x0C

/-- How many are free. -/
def freeBits (s : Fs) : ℕ := (s.disk s.geo.bbb).clearCount s.geo.blocks

/-- The descriptor has no fewer free blocks than there are, so that what has been taken can be
counted. -/
def Funded (s : Fs) : Prop := s.freeBits ≤ s.countedFree

instance (s : Fs) : Decidable (Funded s) := inferInstanceAs (Decidable (_ ≤ _))

theorem countedFree_committed (hg : s.geo.Ok) {n : ℕ} (hn : n ≤ s.countedFree) :
    (s.committed n 0 0).countedFree + n = s.countedFree := by
  have hbs : 1024 ≤ s.geo.bs := by rcases hg.bs with h | h | h <;> omega
  have hgeo : (s.committed n 0 0).geo = s.geo := rfl
  let d := memcpy s.b1 0 (s.disk s.geo.descBlock) 0 s.geo.bs
  let b := setCounts d (Bytes.r16 d 0x0C - n) (Bytes.r16 d 0x0E - 0) (Bytes.r16 d 0x10 + 0)
  have hdisk : (s.committed n 0 0).disk s.geo.descBlock = memcpy (s.disk s.geo.descBlock) 0 b 0
      s.geo.bs := by
    rw [committed, putSb_disk]
    exact (Function.update_of_ne (hg.sb_ne (by simp)).symm _ _).trans (Function.update_self _ _ _)
  have hd : Bytes.r16 d 0x0C = s.countedFree := r16_memcpy (by omega)
  have hb : Bytes.r16 b 0x0C = s.countedFree - n := by
    have hlt : s.countedFree < 2 ^ 16 := r16_lt _ _
    have hsub : (Bytes.r16 d 0x0C - n : ℤ).toNat = s.countedFree - n := by omega
    rw [show b = w16 (w16 (w16 d 0x0C _) 0x0E _) 0x10 _ from rfl, r16_w16_of_disjoint (by omega),
      r16_w16_of_disjoint (by omega), r16_w16_self, hsub, Nat.mod_eq_of_lt (by omega)]
  rw [countedFree, hgeo, hdisk, r16_memcpy (by omega), hb]
  omega

/-- **The blocks that have been taken are counted**, if there are that many. -/
theorem wp_settleBlocks (hg : s.geo.Ok) {n : ℕ} {Q : Unit → Fs → Prop} {E : Fs → Prop}
    (hQ : ∀ u, Settled s u → u.countedFree + n = s.countedFree → Q ⟨⟩ u)
    (hE : n ≠ 0 → s.countedFree < n → ∀ u, Settled s u → E u) : wp (commitCounts n 0 0) Q E s := by
  refine wp_commitCounts hg (fun hz => hQ s (.refl s) (by omega)) (fun _ hcan => ?_) fun hcan => ?_
  · have hn := hcan.1
    rw [← countedFree] at hn
    exact hQ _ (.committed s n 0 0) (countedFree_committed hg (by omega))
  · have hn : s.countedFree < n := by
      by_contra hge
      refine hcan ⟨?_, by omega, by omega⟩
      rw [← countedFree]
      omega
    exact hE (by omega) hn _ (.read1 s _)

/-! ## Behind the gap -/

/-- What `write_at` does when the gap has been filled. -/
def writeTail (ino : ℕ) (buf : Bytes) (off len : ℕ) : Act Unit := do
  let s ← get
  let oldSize := inodeSize s.ino
  let total ← writeAtLoop buf off len oldSize (len + 5) 0 0
  modify fun s => s.setIno <|
    if oldSize < u32 (off + len) then w32 s.ino 4 (u32 (off + len)) else s.ino
  storeInode ino
  commitCounts total 0 0

/-- The image with the size that it has at the end. -/
def sized (img : Bytes) (size : ℕ) : Bytes := if inodeSize img < size then w32 img 4 size else img

/-- Byte `d` is the first that has no block, and it does not get one. -/
def Refused (s : Fs) (ino off len d : ℕ) : Prop :=
  Hole s.geo (s.inodes ino) off len d ∧
    ∀ first, ¬Accepts s (s.inodes ino) (inodeSize (s.inodes ino)) off len d first

/-- The range of the file is what is in the buffer. Everything else is as it was. -/
structure Written (s : Fs) (ino : ℕ) (buf : Bytes) (off len : ℕ) (u : Fs) : Prop where
  geo : u.geo = s.geo
  stack : u.stack = s.stack
  live : ∀ k, u.Live k ↔ s.Live k
  valid : Valid u
  /-- The other inodes are as they were. -/
  kept : ∀ k, k ≠ ino → s.Live k → Kept s u k
  /-- The image in `g_ino` is that on the disk. -/
  loaded : Same u.ino (u.inodes ino)
  /-- It is a file still, -/
  file : IsFile (u.inodes ino)
  /-- with extents. -/
  magic : r16 (u.inodes ino) 0x28 = kExtMagic
  /-- It is as large as it was, or ends behind what was written. -/
  size : inodeSize (u.inodes ino) = max (inodeSize (s.inodes ino)) (u32 (off + len))
  /-- The bytes of the range are those of the buffer, -/
  fresh : ∀ i < len, u.byteAt (u.inodes ino) (place off i) = some (buf i)
  /-- and the others are what they were. -/
  old : ∀ q c, (∀ i < len, place off i ≠ q) → s.byteAt (s.inodes ino) q = some c →
    u.byteAt (u.inodes ino) q = some c
  /-- No block has been given back. -/
  used : ∀ b, s.Used b → u.Used b
  /-- No byte was refused a block. -/
  granted : ∀ d, ¬Refused s ino off len d

/-- The same inodes are in use, and all but `ino` are as they were. That one is still a file. -/
structure Intact (s : Fs) (ino : ℕ) (u : Fs) : Prop where
  geo : u.geo = s.geo
  stack : u.stack = s.stack
  live : ∀ k, u.Live k ↔ s.Live k
  valid : Valid u
  /-- The other inodes are as they were. -/
  kept : ∀ k, k ≠ ino → s.Live k → Kept s u k
  /-- This one is a file still, -/
  file : IsFile (u.inodes ino)
  /-- with extents. -/
  magic : r16 (u.inodes ino) 0x28 = kExtMagic

theorem Written.intact (h : Written s ino buf off len u) : Intact s ino u :=
  ⟨h.geo, h.stack, h.live, h.valid, h.kept, h.file, h.magic⟩

/-- A block is in use that was not. -/
def Leaked (s u : Fs) : Prop := ∃ b < s.geo.blocks, ¬s.Used b ∧ u.Used b

theorem sameMap_sized (img : Bytes) (size : ℕ) : SameMap (sized img size) img := by
  rw [sized]
  split
  · exact .w32 _ _ (by omega)
  · exact .refl _

/-- A size of 64 bits is larger than any, and stays. -/
theorem inodeSize_sized (img : Bytes) {size : ℕ} (h : size < 2 ^ 32) :
    inodeSize (sized img size) = max (inodeSize img) size := by
  by_cases hlt : inodeSize img < size
  · rw [sized, if_pos hlt, max_eq_right hlt.le]
    have hhigh : r32 (w32 img 4 size) 0x6C = 0 := by
      rw [r32_w32_of_disjoint (by omega)]
      by_contra hn
      rw [inodeSize, if_pos hn] at hlt
      omega
    rw [inodeSize, if_neg (not_not_intro hhigh), r32_w32_self, Nat.mod_eq_of_lt h]
  · rw [sized, if_neg hlt, max_eq_left (by omega)]

theorem byteAt_same {img' : Bytes} (h : SameMap img' img) (hf : Flat s.geo img) (q : ℕ) :
    s.byteAt img' q = s.byteAt img q := by rw [byteAt, byteAt, h.mapFlat hf]

/-- **An image is stored and the counts are settled**, or not. -/
theorem Grew.written (h : Grew s s.table ino img s₁ img₁) (hp : Poured s₁ img₁ buf off len t)
    (hv : Valid s) (hi : s.geo.IsIno ino) (hl : s.Live ino) (hsame : Same img (s.inodes ino))
    (hfile : IsFile img) (hmagic : Bytes.r16 img 0x28 = kExtMagic)
    (hall : ∀ i < len, mapFlat img₁ (place off i / s.geo.bs) ≠ none)
    (hgranted : ∀ d, ¬Refused s ino off len d)
    (hino : t.ino = sized img₁ (u32 (off + len))) (hu : Settled (t.stored ino) u) :
    Written s ino buf off len u := by
  have hg := hv.geo
  have hgeo := h.poured_geo hp
  have hmap : SameMap t.ino img₁ := by
    rw [hino]
    exact sameMap_sized img₁ _
  have hgt : (t.stored ino).geo = s.geo := (stored_geo _ _).trans hgeo
  have hgt' : (t.stored ino).geo.Ok := hgt.symm ▸ hg
  have hit : t.geo.IsIno ino := hgeo.symm ▸ hi
  have hugeo : u.geo = s.geo := hu.geo.trans hgt
  -- The table has the new image, and is otherwise as it was.
  have hinodes : ∀ k, Same (u.inodes k) (Function.update s.inodes ino t.ino k) := by
    intro k
    rw [hu.inodes hgt', ← h.poured_inodes hp hg]
    exact inodes_stored (hgeo.symm ▸ hg) hit k
  have himg : Same (u.inodes ino) t.ino := by
    have := hinodes ino
    rwa [Function.update_self] at this
  have hlive : ∀ k, u.Live k ↔ s.Live k := by
    intro k
    rw [hu.live hgt', live_stored (hgeo.symm ▸ hg) hit, h.poured_live hp hg]
  have hdisk : ∀ b, ¬s.geo.IsMeta b → u.disk b = t.disk b := by
    intro b hb
    rw [hu.disk_of_not_meta (hgt.symm ▸ hb)]
    refine stored_disk t ino fun he => hb ?_
    rw [he]
    exact hgeo ▸ Geometry.Ok.slotBlock_meta (hgeo.symm ▸ hg) hit
  have hbyte : ∀ q c, t.byteAt img₁ q = some c → u.byteAt (u.inodes ino) q = some c := by
    intro q c hc
    obtain ⟨p, hm, hc⟩ := Option.map_eq_some_iff.mp hc
    rw [hgeo] at hm hc
    rw [byteAt_same (himg.sameMap.trans hmap) (hugeo ▸ h.flat), byteAt, hugeo, hm, Option.map_some,
      hdisk p (h.not_meta hm), hc]
  have hbyte₀ : ∀ q, s.byteAt img q = s.byteAt (s.inodes ino) q :=
    byteAt_same hsame.sameMap (table_of_live hl ▸ hv.flat ino)
  have hheld : Held u (Function.update s.table ino t.ino) Nothing := by
    refine hu.held (Held.stored ?_ hit)
    have hupd := (h.poured_held hp).updateMap (j := ino) (by rwa [Function.update_self])
    rwa [Function.update_idem] at hupd
  refine ⟨hugeo, ?_, hlive, ?_, ?_, ?_, ?_, ?_, ?_, ?_, ?_, ?_, hgranted⟩
  · have hstack := congrArg Fs.stack h.core
    exact hu.stack.trans ((of_core Fs.stack (fun _ => rfl) hp.core).trans hstack)
  · refine hheld.congr fun k => ?_
    by_cases hk : k = ino
    · subst hk
      rw [table_of_live ((hlive k).mpr hl), Function.update_self]
      exact himg.sameMap
    · rw [Function.update_of_ne hk, table, table]
      by_cases hlk : s.Live k
      · rw [if_pos hlk, if_pos ((hlive k).mpr hlk)]
        have := hinodes k
        rw [Function.update_of_ne hk] at this
        exact this.sameMap
      · rw [if_neg hlk, if_neg fun hn => hlk ((hlive k).mp hn)]
        exact .refl _
  · intro k hk hlk
    have hT : s.table k = s.inodes k := table_of_live hlk
    refine ⟨hugeo, ?_, fun i b hc => ?_⟩
    · have := hinodes k
      rwa [Function.update_of_ne hk] at this
    · rw [← hT] at hc
      rw [hdisk b (hv.not_meta hc)]
      exact h.poured_covers hp hv hk hc
  · rw [hu.ino]
    exact himg.symm
  · rw [himg.sameMap.isFile, hmap.isFile, h.isFile]
    exact hfile
  · rw [himg.r16 (by omega), hmap.magic, h.r16 (by omega)]
    exact hmagic
  · rw [himg.inodeSize, hino, inodeSize_sized _ (u32_lt _), h.inodeSize,
      hsame.inodeSize]
  · exact fun i hi' => hbyte _ _ (h.poured_fresh hp hi' (hall i hi'))
  · intro q c hq hc
    rw [← hbyte₀] at hc
    exact hbyte _ _ (h.poured_old hp hq hc)
  · intro b hb
    rw [hu.used hgt', used_stored (hgeo.symm ▸ hg) hit]
    exact (h.poured_used hp).mpr (h.used b hb)

theorem Grew.used_stored (h : Grew s s.table ino img s₁ img₁) (hp : Poured s₁ img₁ buf off n t)
    (hv : Valid s) (hi : s.geo.IsIno ino) (hu : Settled (t.stored ino) u) {b : ℕ} :
    u.Used b ↔ s₁.Used b := by
  have hgeo := h.poured_geo hp
  have hg : t.geo.Ok := hgeo.symm ▸ hv.geo
  rw [hu.used ((stored_geo t ino).symm ▸ hg), Fs.used_stored hg (hgeo.symm ▸ hi), h.poured_used hp]

/-- More blocks in use do not matter to the owners. -/
theorem Held.grow (h : Held s T Nothing) (hgeo : u.geo = s.geo)
    (hhint : u.hint + s.geo.blocks ≤ 2 ^ 32)
    (hused : ∀ b, s.Used b → u.Used b) : Held u T Nothing := by
  obtain ⟨hg, -, hflat, hown⟩ := h
  refine ⟨hgeo ▸ hg, hgeo ▸ hhint, hgeo ▸ hflat, ?_⟩
  rw [hgeo]
  exact ⟨fun b hb => hused b (hown.kept_used b hb), fun i b hb => hused b (hown.own_used i b hb),
    hown.own_kept, hown.unique, fun _ => False.elim, fun _ => False.elim, fun _ _ => False.elim⟩

/-- **Blocks have been taken and filled**, and no image has been stored. -/
theorem Grew.intact (h : Grew s s.table ino img s₁ img₁) (hp : Poured s₁ img₁ buf off n t)
    (hv : Valid s)
    (hfile : IsFile (s.inodes ino)) (hmagic : Bytes.r16 (s.inodes ino) 0x28 = kExtMagic) :
    Intact s ino t := by
  have hgeo := h.poured_geo hp
  have hinodes := h.poured_inodes hp hv.geo
  have htable : t.table = s.table := by
    funext k
    simp only [table, hinodes, h.poured_live hp hv.geo]
  have hstack := congrArg Fs.stack h.core
  refine ⟨hgeo, (of_core Fs.stack (fun _ => rfl) hp.core).trans hstack,
    fun k => h.poured_live hp hv.geo, ?_,
    fun k hk hl => ⟨hgeo, by rw [hinodes]; exact .refl _, ?_⟩,
    hinodes ▸ hfile, hinodes ▸ hmagic⟩
  · rw [Valid, htable]
    exact hv.grow hgeo (hgeo ▸ (h.poured_held hp).hint) fun b hb =>
      (h.poured_used hp).mpr (h.used b hb)
  · intro i b hc
    exact h.poured_covers hp hv hk (table_of_live hl ▸ hc)

/-- A call that fails leaves the inodes in order, and the file no larger than one that succeeds. -/
structure GivenUp (s : Fs) (ino off len : ℕ) (u : Fs) : Prop extends Intact s ino u where
  size_le : inodeSize (u.inodes ino) ≤ max (inodeSize (s.inodes ino)) (u32 (off + len))

theorem Written.givenUp (h : Written s ino buf off len u) : GivenUp s ino off len u :=
  ⟨h.intact, h.size.le⟩

theorem Grew.givenUp (h : Grew s s.table ino img s₁ img₁) (hp : Poured s₁ img₁ buf off n t)
    (hv : Valid s)
    (hfile : IsFile (s.inodes ino)) (hmagic : Bytes.r16 (s.inodes ino) 0x28 = kExtMagic) (len : ℕ) :
    GivenUp s ino off len t :=
  ⟨h.intact hp hv hfile hmagic, by rw [h.poured_inodes hp hv.geo]; exact le_max_left _ _⟩

/-- The file is no smaller. Blocks have been taken, or a byte is refused a block and those in front
of it have been written. -/
structure Leaves (s : Fs) (ino : ℕ) (buf : Bytes) (off len : ℕ) (u : Fs) : Prop where
  geo : u.geo = s.geo
  /-- The file is no smaller. -/
  size : inodeSize (s.inodes ino) ≤ inodeSize (u.inodes ino)
  /-- Blocks have been taken, or those in front of the byte that got none are written. -/
  what : Leaked s u ∧ (∀ d, ¬Refused s ino off len d) ∨
    ∃ d, Refused s ino off len d ∧ Poured s (s.inodes ino) buf off d u

/-- What a call that has failed leaves of the file in front of its range, where no byte is missing:
the image has not been stored, and these bytes are as they were. -/
def Spared (s : Fs) (ino off : ℕ) (u : Fs) : Prop :=
  Funded s → (∀ q < off, s.byteAt (s.inodes ino) q ≠ none) →
    Funded u ∧ u.inodes = s.inodes ∧ ∀ q < off, u.byteAt (u.inodes ino) q =
    s.byteAt (s.inodes ino) q

namespace Grew

theorem poured_countedFree (h : Grew s T j img s₁ img₁) (hp : Poured s₁ img₁ buf off n t)
    (hg : s.geo.Ok) :
    t.countedFree = s.countedFree := by
  rw [countedFree, countedFree, h.poured_geo hp,
    h.poured_single hp Geometry.Ok.desc_mem hg.desc_ne_bbb]

theorem poured_freeBits (h : Grew s T j img s₁ img₁) (hp : Poured s₁ img₁ buf off n t) :
    t.freeBits = s₁.freeBits := by
  rw [freeBits, freeBits, h.poured_geo hp, h.geo, h.poured_bbb hp]

/-- **No byte of the range is in front of it**: a file has no more bytes than the volume. -/
theorem range_le (h : Grew s T j img s₁ img₁)
    (hfront : ∀ q < off, mapFlat img (q / s.geo.bs) ≠ none)
    (hmapped : ∀ i < n, mapFlat img₁ (place off i / s.geo.bs) ≠ none) :
    off + n ≤ s.geo.blocks * s.geo.bs := by
  by_contra hgt
  have hg : s.geo.Ok := h.geo ▸ h.held.geo
  have hbs := hg.bs_pos
  have htop : s.geo.blocks * s.geo.bs ≤ 32768 * 4096 := Nat.mul_le_mul hg.blocks_le hg.bs_le
  have hrow : s.geo.blocks + 1 ≤ s₁.geo.blocks := by
    refine h.held.row_le (k := j) (a := 0) fun i hi => ?_
    have hle : i * s.geo.bs ≤ s.geo.blocks * s.geo.bs :=
      Nat.mul_le_mul_right _ (Nat.lt_succ_iff.mp hi)
    have hdiv : i * s.geo.bs / s.geo.bs = i := Nat.mul_div_cancel i hbs
    rw [Function.update_self, Nat.zero_add]
    by_cases hlt : i * s.geo.bs < off
    · obtain ⟨p, hp⟩ := Option.ne_none_iff_exists'.mp (hdiv ▸ hfront _ hlt)
      rw [h.map hp]
      exact Option.some_ne_none p
    · have hplace : place off (i * s.geo.bs - off) = i * s.geo.bs := by
        rw [place, u32]
        omega
      have := hmapped (i * s.geo.bs - off) (by omega)
      rwa [hplace, hdiv] at this
  rw [h.geo] at hrow
  omega

/-- **Bytes have been poured, and the image is not stored.** -/
theorem spared (h : Grew s s.table ino img s₁ img₁) (hp : Poured s₁ img₁ buf off n t) (hv : Valid s)
    (hl : s.Live ino) (hsame : Same img (s.inodes ino)) (hoff : off < 2 ^ 32)
    (hfew : s₁.freeBits ≤ s.freeBits)
    (hmapped : ∀ i < n, mapFlat img₁ (place off i / s.geo.bs) ≠ none) : Spared s ino off t := by
  intro hfund hfront
  have hflat : Flat s.geo (s.inodes ino) := table_of_live hl ▸ hv.flat ino
  have hinodes := h.poured_inodes hp hv.geo
  have htop : s.geo.blocks * s.geo.bs ≤ 32768 * 4096 := Nat.mul_le_mul hv.geo.blocks_le hv.geo.bs_le
  have hle := h.range_le (fun q hq hn => hfront q hq (by
    rw [byteAt, ← hsame.sameMap.mapFlat hflat, hn]
    rfl)) hmapped
  refine ⟨?_, hinodes, fun q hq => ?_⟩
  · rw [Funded, h.poured_countedFree hp hv.geo, h.poured_freeBits hp]
    exact hfew.trans hfund
  · obtain ⟨c, hc⟩ := Option.ne_none_iff_exists'.mp (hfront q hq)
    have hc' : s.byteAt img q = some c := (byteAt_same hsame.sameMap hflat q).trans hc
    have hold := h.poured_old hp (fun i hi he => by rw [place, u32] at he; omega) hc'
    -- Where the old map leads somewhere, the new one leads to the same place.
    obtain ⟨p, hm, -⟩ := Option.map_eq_some_iff.mp hc
    have hm' : mapFlat img (q / s.geo.bs) = some p := (hsame.sameMap.mapFlat hflat _).trans hm
    rw [byteAt, h.poured_geo hp, h.map hm'] at hold
    rw [hinodes, byteAt, h.poured_geo hp, hm, hc]
    exact hold

end Grew

theorem Hole.congr {g : Geometry} {img' : Bytes} (h : Hole g img' off len d)
    (hmap : ∀ b, mapFlat img' b = mapFlat img b) : Hole g img off len d :=
  ⟨h.lt, fun i hi => hmap _ ▸ h.mapped i hi, hmap _ ▸ h.hole⟩

theorem Poured.congr {img' : Bytes} (h : Poured s img' buf off n t)
    (hmap : ∀ b, mapFlat img' b = mapFlat img b) : Poured s img buf off n t :=
  ⟨h.core, fun i hi p hp => h.fresh i hi p ((hmap _).trans hp),
    fun p a ha => h.old p a fun i hi hp => ha i hi ((hmap _).symm.trans hp)⟩

/-- There is one first byte without a block. -/
theorem Hole.unique {g : Geometry} {d' : ℕ} (h : Hole g img off len d)
    (h' : Hole g img off len d') :
    d = d' := by
  by_contra hne
  rcases lt_or_gt_of_ne hne with hlt | hlt
  · exact h'.mapped d hlt h.hole
  · exact h.mapped d' hlt h'.hole

theorem Accepts.congr {img' : Bytes} (h : Accepts s img' (inodeSize img') off len d first)
    (hsame : Same img' img) : Accepts s img (inodeSize img) off len d first :=
  ⟨hsame.inodeSize ▸ h.size, hsame.r16 (p := 0x2A) (by omega) ▸ h.entries, h.amount, h.run⟩

/-- The image in `g_ino` does not matter. -/
theorem Poured.setIno (h : Poured s img buf off n t) (b : Bytes) :
    Poured s img buf off n (t.setIno b) :=
  ⟨h.core, h.fresh, h.old⟩

/-- **The end of `write_at`**, when all bytes have been written. -/
theorem wp_finish (h : Grew s s.table ino img s₁ img₁) (hp : Poured s₁ img₁ buf off len t)
    (hv : Valid s) (hi : s.geo.IsIno ino) (hl : s.Live ino) (hsame : Same img (s.inodes ino))
    (hfile : IsFile img) (hmagic : r16 img 0x28 = kExtMagic)
    (hall : ∀ i < len, mapFlat img₁ (place off i / s.geo.bs) ≠ none)
    (hgranted : ∀ d, ¬Refused s ino off len d) (hino : t.ino = img₁) {total : ℕ}
    (hleak : total = 0 ∨ Leaked s s₁) (htotal : s₁.freeBits + total = s.freeBits) :
    wp (do
      modify fun s => s.setIno <|
        if inodeSize img < u32 (off + len) then w32 s.ino 4 (u32 (off + len)) else s.ino
      storeInode ino
      commitCounts total 0 0)
      (fun _ u => Written s ino buf off len u ∧ (Funded s → Funded u))
      (fun u => Written s ino buf off len u ∧ Leaked s u ∧ ¬Funded s) t := by
  have himg : (if inodeSize img < u32 (off + len) then w32 t.ino 4 (u32 (off + len)) else t.ino)
      = sized img₁ (u32 (off + len)) := by
    rw [sized, h.inodeSize, hino]
  have hp' := hp.setIno (sized img₁ (u32 (off + len)))
  rw [wp_bind, wp_modify, himg]
  generalize ht : t.setIno (sized img₁ (u32 (off + len))) = t₁ at hp' ⊢
  have hino₁ : t₁.ino = sized img₁ (u32 (off + len)) := by rw [← ht, setIno_ino]
  have hgeo := h.poured_geo hp'
  have hg : t₁.geo.Ok := hgeo.symm ▸ hv.geo
  rw [wp_bind, wp_storeInode hg (hgeo.symm ▸ hi)]
  have hwritten : ∀ u, Settled (t₁.stored ino) u → Written s ino buf off len u :=
    fun u hu => h.written hp' hv hi hl hsame hfile hmagic hall hgranted hino₁ hu
  have hit : t₁.geo.IsIno ino := hgeo.symm ▸ hi
  have hgt : (t₁.stored ino).geo = s.geo := (stored_geo t₁ ino).trans hgeo
  have hcounted : (t₁.stored ino).countedFree = s.countedFree := by
    have hkeep := stored_single hg hit Geometry.Ok.desc_mem
    rw [← h.poured_countedFree hp' hv.geo, countedFree, countedFree, hgt, hgeo]
    exact congrArg (Bytes.r16 · 0x0C) (hgeo ▸ hkeep)
  refine wp_settleBlocks ((stored_geo t₁ ino).symm ▸ hg) (fun u hu hcount => ⟨hwritten u hu,
    fun hfund => ?_⟩)
    fun hz hlt u hu => ⟨hwritten u hu, ?_, fun hfund => ?_⟩
  · have hbbb : u.disk s.geo.bbb = t₁.disk s.geo.bbb := by
      have hkeep := hu.bbb (hgt.symm ▸ hv.geo)
      rw [hgt] at hkeep
      exact hkeep.trans (stored_single hg hit (hgeo.symm ▸ Geometry.Ok.bbb_mem))
    have hfree : u.freeBits = s₁.freeBits := by
      rw [← h.poured_freeBits hp', freeBits, freeBits, hu.geo, hgt, hgeo, hbbb]
    rw [Funded] at hfund ⊢
    omega
  · obtain ⟨b, hb, hfree, hused⟩ := hleak.resolve_left hz
    exact ⟨b, hb, hfree, (h.used_stored hp' hv hi hu).mpr hused⟩
  · rw [Funded] at hfund
    omega

/-- **What `write_at` does behind the gap**, from a state in which the inode is loaded. -/
theorem wp_writeTail (hv : Valid s) (hi : s.geo.IsIno ino) (hl : s.Live ino)
    (hsame : Same s.ino (s.inodes ino)) (hfile : IsFile (s.inodes ino))
    (hmagic : r16 (s.inodes ino) 0x28 = kExtMagic) (hoff : off < 2 ^ 32) (hlen : len < 2 ^ 32)
    (hsize : off ≤ inodeSize (s.inodes ino)) :
    wp (writeTail ino buf off len) (fun _ u => Written s ino buf off len u ∧ (Funded s → Funded u))
      (fun u => (Leaves s ino buf off len u ∧ GivenUp s ino off len u) ∧ Spared s ino off u) s := by
  have hT : s.table ino = s.inodes ino := table_of_live hl
  have hflat : Flat s.geo (s.inodes ino) := hT ▸ hv.flat ino
  have hheld : Held s (Function.update s.table ino s.ino) Nothing :=
    hv.updateMap (by rw [hT]; exact hsame.sameMap)
  have hmap := hsame.sameMap.mapFlat hflat
  have hfile' : IsFile s.ino := hsame.sameMap.isFile.mpr hfile
  have hmagic' : r16 s.ino 0x28 = kExtMagic := (hsame.r16 (by omega)).trans hmagic
  have hleak : ∀ {d first}, Accepts s s.ino (inodeSize s.ino) off len d first →
      Leaked s (s.taken first (needed s.geo off len d)) := fun ha => ⟨_, granted_used hheld ha⟩
  have hno : ∀ {d first}, Hole s.geo s.ino off len d →
    Accepts s s.ino (inodeSize s.ino) off len d first →
      ∀ e, ¬Refused s ino off len e := by
    rintro d first hhole ha e ⟨hhole', hrefused⟩
    obtain rfl := (hhole.congr hmap).unique hhole'
    exact hrefused first (ha.congr hsame)
  have htaken : ∀ {d first}, Accepts s s.ino (inodeSize s.ino) off len d first →
      (s.taken first (needed s.geo off len d)).freeBits + needed s.geo off len d = s.freeBits := by
    intro d first ha
    obtain ⟨-, hle, hclear⟩ := hheld.freeRun ha.run
    have := (Tally.taken hheld.geo hle hclear).blocks
    rw [freeBits, freeBits]
    exact_mod_cast this
  rw [writeTail, wp_bind, wp_get, wp_bind]
  refine wp_mono (wp_writeAtLoop hheld hfile' hmagic' hoff hlen (hsame.inodeSize ▸ hsize)
    (Poured.zero rfl) rfl (Nat.zero_le len) (by omega) fun i hi =>
    absurd hi (Nat.not_lt_zero i)) ?_ ?_
  · rintro r t (⟨rfl, hino, hp, hall⟩ | ⟨d, first, hhole, ha, rfl, hino, hp, hall⟩)
    · have hgranted : ∀ d, ¬Refused s ino off len d :=
        fun d hr => hall d hr.1.lt ((hmap _).trans hr.1.hole)
      refine wp_mono (wp_finish (.refl hheld) hp hv hi hl hsame hfile' hmagic' hall hgranted hino
        (.inl rfl) rfl) (fun _ _ => id) ?_
      rintro u ⟨hw, hleaked, hfund⟩
      exact ⟨⟨⟨hw.geo, hw.size ▸ le_max_left _ _, .inl ⟨hleaked, hgranted⟩⟩, hw.givenUp⟩,
        fun h => absurd h hfund⟩
    · refine wp_mono (wp_finish (.granted hheld hmagic' ha) hp hv hi hl hsame hfile' hmagic' hall
        (hno hhole ha) hino (.inr (hleak ha)) (htaken ha)) (fun _ _ => id) ?_
      rintro u ⟨hw, hleaked, hfund⟩
      exact ⟨⟨⟨hw.geo, hw.size ▸ le_max_left _ _, .inl ⟨hleaked, hno hhole ha⟩⟩, hw.givenUp⟩,
        fun h => absurd h hfund⟩
  · rintro u (⟨d, hhole, hnone, hp⟩ | ⟨d, first, m, hhole, ha, hp, hmapped⟩)
    · have hinodes := (Grew.refl hheld).poured_inodes hp hv.geo
      exact ⟨⟨⟨(Grew.refl hheld).poured_geo hp, by rw [hinodes], .inr ⟨d, ⟨hhole.congr hmap,
        fun first ha => hnone first (ha.congr hsame.symm)⟩, hp.congr hmap⟩⟩,
        (Grew.refl hheld).givenUp hp hv hfile hmagic len⟩,
        (Grew.refl hheld).spared hp hv hl hsame hoff le_rfl hhole.mapped⟩
    · have hgrew := Grew.granted hheld hmagic' ha
      obtain ⟨b, hb, hfree, hused⟩ := hleak ha
      have hfew := htaken ha
      exact ⟨⟨⟨hgrew.poured_geo hp, by rw [hgrew.poured_inodes hp hv.geo],
        .inl ⟨⟨b, hb, hfree, (hgrew.poured_used hp).mpr hused⟩, hno hhole ha⟩⟩,
        hgrew.givenUp hp hv hfile hmagic len⟩, hgrew.spared hp hv hl hsame hoff (by omega) hmapped⟩

/-! ## Inside the file -/

theorem writeAtBody_eq (self : Bytes → ℕ → ℕ → Act Unit) (ino : ℕ) (buf : Bytes) (off len : ℕ) :
    writeAtBody self ino buf off len = (do
      loadInode ino
      let s ← get
      guard (IsFile s.ino)
      guard (r16 s.ino 0x2E = 0)
      fillGap self off (off - inodeSize s.ino + 1) (inodeSize s.ino)
      writeTail ino buf off len) := rfl

/-- `write_at` begins with the inode loaded. -/
theorem wp_writeAtBody {self : Bytes → ℕ → ℕ → Act Unit} {Q : Unit → Fs → Prop} {E : Fs → Prop}
    (hv : Valid s) (hi : s.geo.IsIno ino) (hl : s.Live ino) (hfile : IsFile (s.inodes ino))
    (h : ∀ t : Fs, t.core = s.core → Same t.ino (s.inodes ino) →
      wp (fillGap self off (off - inodeSize (s.inodes ino) + 1) (inodeSize (s.inodes ino)))
        (fun _ => wp (writeTail ino buf off len) Q E) E t) :
    wp (writeAtBody self ino buf off len) Q E s := by
  have hflat : Flat s.geo (s.inodes ino) := table_of_live hl ▸ hv.flat ino
  have hsame := loaded_ino hv.geo hi
  rw [writeAtBody_eq, wp_bind, wp_loadInode hv.geo]
  refine ⟨fun _ => ?_, fun hn => absurd hi hn⟩
  rw [wp_bind, wp_get, wp_bind, wp_guard]
  refine ⟨fun _ => ?_, fun hn => absurd (hsame.sameMap.isFile.mpr hfile) hn⟩
  rw [wp_bind, wp_guard]
  refine ⟨fun _ => ?_, fun hn => absurd ((hsame.r16 (by omega)).trans hflat.depth) hn⟩
  rw [wp_bind, hsame.inodeSize]
  exact h _ rfl hsame

theorem Kept.of_core (h : Kept s' u k) (hcore : s'.core = s.core) : Kept s u k := by
  obtain ⟨hgeo, himg, hblocks⟩ := h
  rw [core_inodes hcore] at himg hblocks
  exact ⟨hgeo.trans (core_geo hcore), himg, fun i b hc => by rw [hblocks i b hc, core_disk hcore]⟩

theorem core_used (h : s'.core = s.core) {b : ℕ} : s'.Used b ↔ s.Used b := by
  rw [Used, Used, core_geo h, core_disk h]

theorem core_live (h : s'.core = s.core) {k : ℕ} : s'.Live k ↔ s.Live k := by
  rw [Live, Live, core_geo h, core_disk h]

theorem core_refused (h : s'.core = s.core) : Refused s' ino off len d ↔
    Refused s ino off len d := by
  have haccepts : ∀ {r r' : Fs}, r'.core = r.core → ∀ first, Accepts r (r.inodes ino)
      (inodeSize (r.inodes ino)) off len d first → Accepts r' (r'.inodes ino)
        (inodeSize (r'.inodes ino)) off len d first := by
    rintro r r' hr first ⟨hsize, he, hamount, hrun⟩
    rw [← core_inodes hr] at hsize he
    rw [← core_geo hr, ← core_freeRun hr] at hrun
    exact ⟨hsize, he, core_geo hr ▸ hamount, hrun⟩
  have hhole : Hole s'.geo (s'.inodes ino) off len d ↔ Hole s.geo (s.inodes ino) off len d := by
    rw [core_geo h, core_inodes h]
  rw [Refused, Refused, hhole]
  exact and_congr_right fun _ => forall_congr' fun first =>
    not_congr ⟨haccepts h.symm first, haccepts h first⟩

/-- The buffers at the beginning do not matter. -/
theorem Written.of_core (h : Written s' ino buf off len u) (hcore : s'.core = s.core) :
    Written s ino buf off len u where
  geo := h.geo.trans (core_geo hcore)
  stack := h.stack.trans (Fs.of_core Fs.stack (fun _ => rfl) hcore)
  live k := (h.live k).trans (core_live hcore)
  valid := h.valid
  kept k hk hl := (h.kept k hk ((core_live hcore).mpr hl)).of_core hcore
  loaded := h.loaded
  file := h.file
  magic := h.magic
  size := by rw [h.size, core_inodes hcore]
  fresh := h.fresh
  old q c hq hc := by
    refine h.old q c hq ?_
    rw [byteAt_core hcore, core_inodes hcore]
    exact hc
  used b hb := h.used b ((core_used hcore).mpr hb)
  granted d hd := h.granted d ((core_refused hcore).mpr hd)

theorem Intact.of_core (h : Intact s' ino u) (hcore : s'.core = s.core) : Intact s ino u where
  geo := h.geo.trans (core_geo hcore)
  stack := h.stack.trans (Fs.of_core Fs.stack (fun _ => rfl) hcore)
  live k := (h.live k).trans (core_live hcore)
  valid := h.valid
  kept k hk hl := (h.kept k hk ((core_live hcore).mpr hl)).of_core hcore
  file := h.file
  magic := h.magic

theorem GivenUp.of_core (h : GivenUp s' ino off len u) (hcore : s'.core = s.core) :
    GivenUp s ino off len u := ⟨h.toIntact.of_core hcore, core_inodes hcore ▸ h.size_le⟩

theorem Valid.of_core (hv : Valid s) (hcore : s'.core = s.core) : Valid s' := by
  rw [Valid, Fs.of_core Fs.table (fun _ => rfl) hcore]
  exact Held.of_core hv hcore

theorem Leaves.of_core (h : Leaves s' ino buf off len u) (hcore : s'.core = s.core) :
    Leaves s ino buf off len u := by
  obtain ⟨hgeo, hsize, hwhat⟩ := h
  rw [core_inodes hcore] at hsize hwhat
  simp only [core_refused hcore] at hwhat
  refine ⟨hgeo.trans (core_geo hcore), hsize, hwhat.imp (And.imp_left ?_) ?_⟩
  · rintro ⟨b, hb, hfree, hused⟩
    exact ⟨b, core_geo hcore ▸ hb, fun hn => hfree ((core_used hcore).mpr hn), hused⟩
  · rintro ⟨d, hrefused, hc, hfresh, hold⟩
    rw [core_geo hcore, core_disk hcore] at hold
    rw [core_geo hcore] at hfresh
    refine ⟨d, hrefused, hc.trans ?_, hfresh, hold⟩
    change s'.core.withDisk u.disk = s.core.withDisk u.disk
    rw [hcore]

theorem core_funded (h : s'.core = s.core) : Funded s' ↔ Funded s := by
  rw [Funded, Funded, freeBits, freeBits, countedFree, countedFree, core_geo h, core_disk h]

theorem Spared.of_core (h : Spared s' ino off u) (hcore : s'.core = s.core) :
    Spared s ino off u := by
  intro hfund hfront
  obtain ⟨hu, hinodes, hbytes⟩ := h ((core_funded hcore).mpr hfund) fun q hq => by
    rw [byteAt_core hcore, core_inodes hcore]
    exact hfront q hq
  refine ⟨hu, hinodes.trans (core_inodes hcore), fun q hq => ?_⟩
  rw [hbytes q hq, byteAt_core hcore, core_inodes hcore]

section Inside

variable {self : Bytes → ℕ → ℕ → Act Unit} (hv : Valid s) (hi : s.geo.IsIno ino)
  (hl : s.Live ino) (hfile : IsFile (s.inodes ino)) (hmagic : r16 (s.inodes ino) 0x28 = kExtMagic)
  (hoff : off < 2 ^ 32) (hlen : len < 2 ^ 32) (hsize : off ≤ inodeSize (s.inodes ino))

include hv hi hl hfile hmagic hoff hlen hsize

/-- **A call that does not begin behind the end** of the file. -/
theorem wp_writeAt_spared :
    wp (writeAtBody self ino buf off len) (fun _ u => Written s ino buf off len u ∧
      (Funded s → Funded u))
      (fun u => (Leaves s ino buf off len u ∧ GivenUp s ino off len u) ∧ Spared s ino off u) s := by
  refine wp_writeAtBody hv hi hl hfile fun t hcore hsame => ?_
  rw [fillGap, wp_ite]
  refine ⟨fun _ => ?_, fun hn => absurd hsize hn⟩
  have hinodes := core_inodes hcore
  rw [wp_pure]
  refine wp_mono (wp_writeTail (hv.of_core hcore) (core_geo hcore ▸ hi) ((core_live hcore).mpr hl)
    (hinodes ▸ hsame) (hinodes ▸ hfile) (hinodes ▸ hmagic) hoff hlen (hinodes ▸ hsize)) ?_ ?_
  · exact fun _ u hu => ⟨hu.1.of_core hcore, fun hfund => hu.2 ((core_funded hcore).mpr hfund)⟩
  · exact fun u hu => ⟨⟨hu.1.1.of_core hcore, hu.1.2.of_core hcore⟩, hu.2.of_core hcore⟩

theorem wp_writeAt_inside :
    wp (writeAtBody self ino buf off len) (fun _ u => Written s ino buf off len u)
      (fun u => Leaves s ino buf off len u ∧ GivenUp s ino off len u) s :=
  wp_mono (wp_writeAt_spared hv hi hl hfile hmagic hoff hlen hsize) (fun _ _ h => h.1)
    fun _ h => h.1

end Inside

end Fs

end Aurisys
