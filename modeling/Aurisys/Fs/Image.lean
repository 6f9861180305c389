import Aurisys.Fs.Files

/-!
# Inode images

An inode is 128 bytes or more, of which the first 100 matter. What an image says about blocks is in
its mode, its flags and its four extent slots; the size, the link count and the block count are
elsewhere. So a write to one of these leaves the map as it is, and this is said once, with
`SameMap`.

## Main definitions

* `SameMap`
* `Covers` — an extent of an image covers a block
* `Flat` — the map is a list of no more than four extents

## Main results

* `Flat.addExtent`, `covers_addExtent`
* `mapLblock_spec` — where a logical block of a flat image is
-/

namespace Aurisys

open Bytes

namespace Fs

/-- Two images have the same mode, flags and extents. -/
def SameMap (a b : Bytes) : Prop := ∀ j, j < 2 ∨ 0x20 ≤ j ∧ j < 100 → a j = b j

/-- Two images are the same in the 128 bytes that every inode has. -/
def Same (a b : Bytes) : Prop := ∀ j < 128, a j = b j

/-- Extent `i` covers block `b`. -/
def Covers (img : Bytes) (i b : ℕ) : Prop :=
  i < r16 img 0x2A ∧ (extentAt img i).1 ≤ b ∧ b < (extentAt img i).1 + (extentAt img i).2

/-- The inode has no more than four extents, in the image itself, and what is not in use of their
slots is zero. -/
structure Flat (g : Geometry) (img : Bytes) : Prop where
  /-- There is no index above the extents. -/
  depth : r16 img 0x2E = 0
  /-- There are four at most. -/
  few : r16 img 0x2A ≤ 4
  /-- The other slots are zero. -/
  vacant : ∀ i < 4, r16 img 0x2A ≤ i → ∀ j < 12, img (0x34 + i * 12 + j) = 0
  /-- A file or a directory says that it has extents. -/
  flagged : IsFile img ∨ IsDir img → r32 img 0x20 &&& kExtentsFl ≠ 0
  /-- An extent is not empty, and is on the volume. -/
  bounds : ∀ i < r16 img 0x2A,
    0 < (extentAt img i).2 ∧ (extentAt img i).1 + (extentAt img i).2 ≤ g.blocks

variable {g : Geometry} {img a b : Bytes}

namespace Same

theorem refl (a : Bytes) : Same a a := fun _ _ => rfl

theorem symm (h : Same a b) : Same b a := fun j hj => (h j hj).symm

theorem trans {c : Bytes} (h : Same a b) (h' : Same b c) : Same a c :=
  fun j hj => (h j hj).trans (h' j hj)

theorem sameMap (h : Same a b) : SameMap a b := fun j _ => h j (by omega)

theorem r16 (h : Same a b) {p : ℕ} (hp : p + 2 ≤ 128) : r16 a p = r16 b p :=
  r16_congr fun _ _ => h _ (by omega)

theorem r32 (h : Same a b) {p : ℕ} (hp : p + 4 ≤ 128) : r32 a p = r32 b p :=
  r32_congr fun _ _ => h _ (by omega)

theorem inodeSize (h : Same a b) : inodeSize a = inodeSize b := by
  rw [Fs.inodeSize, Fs.inodeSize, h.r32 (by omega), h.r32 (by omega)]

end Same

namespace SameMap

theorem refl (a : Bytes) : SameMap a a := fun _ _ => rfl

theorem trans {c : Bytes} (h : SameMap a b) (h' : SameMap b c) : SameMap a c :=
  fun j hj => (h j hj).trans (h' j hj)

theorem mode (h : SameMap a b) : r16 a 0 = r16 b 0 := r16_congr fun _ _ => h _ (by omega)

theorem flags (h : SameMap a b) : r32 a 0x20 = r32 b 0x20 := r32_congr fun _ _ => h _ (by omega)

theorem magic (h : SameMap a b) : r16 a 0x28 = r16 b 0x28 := r16_congr fun _ _ => h _ (by omega)

theorem entries (h : SameMap a b) : r16 a 0x2A = r16 b 0x2A := r16_congr fun _ _ => h _ (by omega)

theorem depth (h : SameMap a b) : r16 a 0x2E = r16 b 0x2E := r16_congr fun _ _ => h _ (by omega)

theorem extentAt (h : SameMap a b) {i : ℕ} (hi : i < 4) : extentAt a i = extentAt b i := by
  have h4 : r16 a (0x34 + i * 12 + 4) = r16 b (0x34 + i * 12 + 4) :=
    r16_congr fun _ _ => h _ (by omega)
  have h6 : r16 a (0x34 + i * 12 + 6) = r16 b (0x34 + i * 12 + 6) :=
    r16_congr fun _ _ => h _ (by omega)
  have h8 : r32 a (0x34 + i * 12 + 8) = r32 b (0x34 + i * 12 + 8) :=
    r32_congr fun _ _ => h _ (by omega)
  simp only [Fs.extentAt, extStart, extLen, h4, h6, h8]

theorem isFile (h : SameMap a b) : IsFile a ↔ IsFile b := by rw [IsFile, IsFile, h.mode]

theorem isDir (h : SameMap a b) : IsDir a ↔ IsDir b := by rw [IsDir, IsDir, h.mode]

/-- The map of an image depends on no more than that. -/
theorem flat (h : SameMap a b) (hf : Flat g b) : Flat g a where
  depth := h.depth.trans hf.depth
  few := h.entries ▸ hf.few
  vacant i hi hv j hj := (h _ (by omega)).trans (hf.vacant i hi (h.entries ▸ hv) j hj)
  flagged hm := by
    rw [h.flags]
    exact hf.flagged (hm.imp h.isFile.mp h.isDir.mp)
  bounds i hi := by
    rw [h.entries] at hi
    rw [h.extentAt (lt_of_lt_of_le hi hf.few)]
    exact hf.bounds i hi

theorem covers (h : SameMap a b) (hf : Flat g b) {i blk : ℕ} : Covers a i blk ↔ Covers b i blk := by
  rw [Covers, Covers, h.entries]
  refine and_congr_right fun hi => ?_
  rw [h.extentAt (lt_of_lt_of_le hi hf.few)]

/-- A word outside the mode, the flags and the extents. -/
theorem w32 (img : Bytes) (v : ℕ) {p : ℕ} (h : 2 ≤ p ∧ p + 4 ≤ 0x20) : SameMap (w32 img p v) img :=
  fun _ _ => w32_of_lt_or_ge (by omega)

end SameMap

/-! ## Adding an extent -/

section AddExtent

variable (img : Bytes) (l n first : ℕ)

theorem entries_addExtent (h : r16 img 0x2A < 4) :
    r16 (addExtent img l n first) 0x2A = r16 img 0x2A + 1 := by
  rw [addExtent, r16_w16_self]
  omega

/-- Only the slot and the number of entries change. -/
theorem addExtent_apply {j : ℕ} (hj : j < 0x2A ∨ 0x2C ≤ j)
    (he : j < 0x34 + r16 img 0x2A * 12 ∨ 0x34 + r16 img 0x2A * 12 + 12 ≤ j) :
    addExtent img l n first j = img j := by
  rw [addExtent, w16_of_lt_or_ge (by omega), w32_of_lt_or_ge (by omega), w16_of_lt_or_ge (by omega),
    w32_of_lt_or_ge (by omega)]

theorem extentAt_addExtent_of_ne {i : ℕ} (hi : i ≠ r16 img 0x2A) :
    extentAt (addExtent img l n first) i = extentAt img i := by
  have hj : ∀ j, 0x34 + i * 12 ≤ j → j < 0x34 + i * 12 + 12 → addExtent img l n first j = img j :=
    fun j _ _ => addExtent_apply img l n first (by omega) (by omega)
  have h4 : r16 (addExtent img l n first) (0x34 + i * 12 + 4) = r16 img (0x34 + i * 12 + 4) :=
    r16_congr fun k hk => hj _ (by omega) (by omega)
  have h6 : r16 (addExtent img l n first) (0x34 + i * 12 + 6) = r16 img (0x34 + i * 12 + 6) :=
    r16_congr fun k hk => hj _ (by omega) (by omega)
  have h8 : r32 (addExtent img l n first) (0x34 + i * 12 + 8) = r32 img (0x34 + i * 12 + 8) :=
    r32_congr fun k hk => hj _ (by omega) (by omega)
  simp only [extentAt, extStart, extLen, h4, h6, h8]

variable {img l n first}

/-- The high half of the first block is what was in the slot. -/
theorem extentAt_addExtent (hn : n ≤ 32767) (hfirst : first < 2 ^ 32) :
    extentAt (addExtent img l n first) (r16 img 0x2A) =
      (r16 img (0x34 + r16 img 0x2A * 12 + 6) * 2 ^ 16 ||| first, n) := by
  have h4 : r16 (addExtent img l n first) (0x34 + r16 img 0x2A * 12 + 4) = n := by
    rw [addExtent, r16_w16_of_disjoint (by omega), r16_w32_of_disjoint (by omega), r16_w16_self]
    omega
  have h6 : r16 (addExtent img l n first) (0x34 + r16 img 0x2A * 12 + 6) =
      r16 img (0x34 + r16 img 0x2A * 12 + 6) := by
    rw [addExtent, r16_w16_of_disjoint (by omega), r16_w32_of_disjoint (by omega),
      r16_w16_of_disjoint (by omega), r16_w32_of_disjoint (by omega)]
  have h8 : r32 (addExtent img l n first) (0x34 + r16 img 0x2A * 12 + 8) = first := by
    rw [addExtent, r32_w16_of_disjoint (by omega), r32_w32_self]
    omega
  have hlen : n &&& 0x7FFF = n := by
    change n &&& 2 ^ 15 - 1 = n
    rw [Nat.and_two_pow_sub_one_eq_mod]
    omega
  rw [extentAt, extStart, extLen, h4, h6, h8, hlen]

/-- The next slot has a zero there. -/
theorem Flat.high (hf : Flat g img) (he : r16 img 0x2A < 4) :
    r16 img (0x34 + r16 img 0x2A * 12 + 6) = 0 := by
  have hz := hf.vacant _ he (le_refl _)
  rw [r16, hz 6 (by omega), Nat.add_assoc, hz 7 (by omega)]
  rfl

theorem extentAt_addExtent_self (hf : Flat g img) (he : r16 img 0x2A < 4) (hn : n ≤ 32767)
    (hfirst : first < 2 ^ 32) :
    extentAt (addExtent img l n first) (r16 img 0x2A) = (first, n) := by
  rw [extentAt_addExtent hn hfirst, hf.high he, Nat.zero_mul, Nat.zero_or]

theorem Flat.addExtent (hf : Flat g img) (he : r16 img 0x2A < 4) (hn : 0 < n ∧ n ≤ 32767)
    (hfirst : first + n ≤ g.blocks) (hg : g.blocks < 2 ^ 32) :
    Flat g (addExtent img l n first) where
  depth := by
    rw [Fs.addExtent, r16_w16_of_disjoint (by omega), r16_w32_of_disjoint (by omega),
      r16_w16_of_disjoint (by omega), r16_w32_of_disjoint (by omega)]
    exact hf.depth
  few := by
    rw [entries_addExtent img l n first he]
    exact he
  vacant i hi hv j hj := by
    rw [entries_addExtent img l n first he] at hv
    rw [addExtent_apply img l n first (by omega) (by omega)]
    exact hf.vacant i hi (by omega) j hj
  flagged hm := by
    have hmode : r16 (Fs.addExtent img l n first) 0 = r16 img 0 :=
      r16_congr fun j hj => addExtent_apply img l n first (by omega) (by omega)
    have hflags : r32 (Fs.addExtent img l n first) 0x20 = r32 img 0x20 :=
      r32_congr fun j hj => addExtent_apply img l n first (by omega) (by omega)
    rw [hflags]
    rw [IsFile, IsDir, hmode] at hm
    exact hf.flagged hm
  bounds i hi := by
    rw [entries_addExtent img l n first he] at hi
    by_cases h : i = r16 img 0x2A
    · rw [h, extentAt_addExtent_self hf he hn.2 (by omega)]
      exact ⟨hn.1, hfirst⟩
    · rw [extentAt_addExtent_of_ne img l n first h]
      exact hf.bounds i (by omega)

/-- **What a new extent covers.** -/
theorem covers_addExtent (hf : Flat g img) (he : r16 img 0x2A < 4) (hn : n ≤ 32767)
    (hfirst : first < 2 ^ 32) {i blk : ℕ} :
    Covers (addExtent img l n first) i blk ↔
      Covers img i blk ∨ i = r16 img 0x2A ∧ first ≤ blk ∧ blk < first + n := by
  rw [Covers, Covers, entries_addExtent img l n first he]
  by_cases h : i = r16 img 0x2A
  · rw [h, extentAt_addExtent_self hf he hn hfirst]
    constructor
    · exact fun hc => .inr ⟨rfl, hc.2⟩
    · exact fun hc => hc.elim (fun hc => absurd hc.1 (lt_irrefl _)) fun hc =>
        ⟨Nat.lt_succ_self _, hc.2⟩
  · rw [extentAt_addExtent_of_ne img l n first h]
    constructor
    · exact fun hc => .inl ⟨by omega, hc.2⟩
    · exact fun hc => hc.elim (fun hc => ⟨by omega, hc.2⟩) fun hc => absurd hc.1 h

end AddExtent

/-! ## The map -/

/-- Where extent `i` has a logical block. -/
def extentFind (img : Bytes) (lblock i : ℕ) : Option ℕ :=
  let eb := r32 img (0x34 + i * 12)
  if lblock < eb ∨ u32 (eb + (extentAt img i).2) ≤ lblock then none
  else some (u32 ((extentAt img i).1 + (lblock - eb)))

/-- Where a flat image has a logical block. -/
def mapFlat (img : Bytes) (lblock : ℕ) : Option ℕ :=
  if r16 img 0x28 = kExtMagic then (List.range (r16 img 0x2A)).findSome? (extentFind img lblock)
  else none

/-- Behind all extents there is nothing. -/
theorem mapFlat_behind {n lblock : ℕ}
    (h : ∀ i < r16 img 0x2A, u32 (r32 img (0x34 + i * 12) + (extentAt img i).2) ≤ n)
    (hn : n ≤ lblock) :
    mapFlat img lblock = none := by
  have hall : (List.range (r16 img 0x2A)).findSome? (extentFind img lblock) = none := by
    refine List.findSome?_eq_none_iff.mpr fun i hi => if_pos (.inr ?_)
    exact (h i (List.mem_range.mp hi)).trans hn
  rw [mapFlat, hall, ite_self]

/-- A node of the tree inside an image. -/
theorem leafFind_image (img : Bytes) (lblock : ℕ) :
    leafFind (fun a => img (0x28 + a)) lblock =
      (List.range (r16 img 0x2A)).findSome? (extentFind img lblock) := by
  rw [leafFind]
  congr 1
  funext i
  have he : 0x34 + i * 12 = 0x28 + (12 + i * 12) := by omega
  rw [extentFind, extentAt, he]
  rfl

/-- **The map of a flat image** is looked up without reading a block. -/
theorem mapLblock_flat {s : Fs} (hf : Flat g s.ino) (hm : IsFile s.ino ∨ IsDir s.ino) (lblock : ℕ) :
    Fallible.exec (mapLblock lblock) s = (mapFlat s.ino lblock, s) := by
  have hdepth : r16 (fun a => s.ino (0x28 + a)) 6 = 0 := hf.depth
  rw [mapLblock, Fallible.exec_bind, Fallible.exec_get]
  simp only [if_pos (hf.flagged hm), kMaxDepth, extentWalk, Fallible.exec_bind, if_pos hdepth,
    leafFind_image]
  have hmagic : r16 (fun a => s.ino (0x28 + a)) 0 = r16 s.ino 0x28 := rfl
  rw [mapFlat, hmagic]
  by_cases h : r16 s.ino 0x28 = kExtMagic
  · rw [if_pos h, guard, if_pos h, Fallible.exec_pure]
    cases (List.range (r16 s.ino 0x2A)).findSome? (extentFind s.ino lblock) <;> rfl
  · rw [if_neg h, guard, if_neg h, Fallible.exec_failure]

/-- **What the map leads to**: a block of an extent, as far into it as the logical block is. -/
theorem mapFlat_spec (hf : Flat g img) (hg : g.blocks < 2 ^ 32) {lblock phys : ℕ}
    (h : mapFlat img lblock = some phys) : ∃ i, Covers img i phys ∧
      phys + r32 img (0x34 + i * 12) = (extentAt img i).1 + lblock := by
  rw [mapFlat] at h
  split at h
  · obtain ⟨i, hi, hfind⟩ := List.exists_of_findSome?_eq_some h
    have hlt := List.mem_range.mp hi
    have hb := (hf.bounds i hlt).2
    rw [extentFind] at hfind
    split at hfind
    · simp at hfind
    · next hin =>
      have hle : u32 (r32 img (0x34 + i * 12) + (extentAt img i).2) ≤
        r32 img (0x34 + i * 12) + (extentAt img i).2 := Nat.mod_le _ _
      have hp := Option.some.inj hfind
      rw [u32, Nat.mod_eq_of_lt (by omega)] at hp
      exact ⟨i, ⟨hlt, by omega, by omega⟩, by omega⟩
  · simp at h

theorem covers_of_mapFlat (hf : Flat g img) (hg : g.blocks < 2 ^ 32) {lblock phys : ℕ}
    (h : mapFlat img lblock = some phys) : ∃ i, Covers img i phys := by
  obtain ⟨i, hi, -⟩ := mapFlat_spec hf hg h
  exact ⟨i, hi⟩

/-- What the map leads to is on the volume. -/
theorem Flat.mapFlat_lt (hf : Flat g img) (hg : g.blocks < 2 ^ 32) {lblock phys : ℕ}
    (h : mapFlat img lblock = some phys) : phys < g.blocks := by
  obtain ⟨i, hi⟩ := covers_of_mapFlat hf hg h
  exact lt_of_lt_of_le hi.2.2 (hf.bounds i hi.1).2

theorem wp_mapLblock {s : Fs} {E : Fs → Prop} {Q : ℕ → Fs → Prop} {lblock : ℕ}
    (hf : Flat s.geo s.ino)
    (hm : IsFile s.ino ∨ IsDir s.ino) (hQ : ∀ phys, mapFlat s.ino lblock = some phys → Q phys s)
    (hE : mapFlat s.ino lblock = none → E s) : Fallible.wp (mapLblock lblock) Q E s := by
  rw [Fallible.wp, mapLblock_flat hf hm]
  cases h : mapFlat s.ino lblock with
  | none => exact hE h
  | some phys => exact hQ phys h

theorem findSome_congr {α β : Type} {f g : α → Option β} {l : List α} (h : ∀ a ∈ l, f a = g a) :
    l.findSome? f = l.findSome? g := by
  induction l with
  | nil => rfl
  | cons a l ih =>
    rw [List.findSome?_cons, List.findSome?_cons, h a (List.mem_cons_self ..),
      ih fun c hc => h c (List.mem_cons_of_mem _ hc)]

theorem SameMap.mapFlat_of_few {a b : Bytes} (h : SameMap a b) (hfew : r16 b 0x2A ≤ 4)
    (lblock : ℕ) :
    mapFlat a lblock = mapFlat b lblock := by
  rw [Fs.mapFlat, Fs.mapFlat, h.magic, h.entries]
  refine if_congr Iff.rfl (findSome_congr fun i hi => ?_) rfl
  have hi := List.mem_range.mp hi
  have heb : r32 a (0x34 + i * 12) = r32 b (0x34 + i * 12) := r32_congr fun _ _ => h _ (by omega)
  rw [extentFind, extentFind, heb, h.extentAt (by omega)]

theorem SameMap.mapFlat {a b : Bytes} {g : Geometry} (h : SameMap a b)
    (hf : Flat g b) (lblock : ℕ) :
    mapFlat a lblock = mapFlat b lblock := h.mapFlat_of_few hf.few lblock

/-- **A new extent** leads to its blocks wherever nothing led before. -/
theorem mapFlat_addExtent_slot {l n first : ℕ} (hmagic : r16 img 0x28 = kExtMagic)
    (he : r16 img 0x2A < 4) (hn : n ≤ 32767) (hfirst : first < 2 ^ 32)
    (hl : l + n < 2 ^ 32) (b : ℕ) :
    mapFlat (addExtent img l n first) b = (mapFlat img b).or (if l ≤ b ∧ b < l + n then
      some (u32 ((r16 img (0x34 + r16 img 0x2A * 12 + 6) * 2 ^ 16 ||| first) + (b - l)))
      else none) := by
  have hmagic' : r16 (addExtent img l n first) 0x28 = kExtMagic := by
    rw [← hmagic]
    exact r16_congr fun j hj => addExtent_apply img l n first (by omega) (by omega)
  rw [mapFlat, mapFlat, if_pos hmagic', if_pos hmagic, entries_addExtent img l n first he,
    List.range_succ, List.findSome?_append]
  have hold : (List.range (r16 img 0x2A)).findSome? (extentFind (addExtent img l n first) b)
      = (List.range (r16 img 0x2A)).findSome? (extentFind img b) := by
    refine findSome_congr fun i hi => ?_
    have hi := List.mem_range.mp hi
    have heb : r32 (addExtent img l n first) (0x34 + i * 12) = r32 img (0x34 + i * 12) :=
      r32_congr fun j hj => addExtent_apply img l n first (by omega) (by omega)
    rw [extentFind, extentFind, heb, extentAt_addExtent_of_ne img l n first hi.ne]
  have heb : r32 (addExtent img l n first) (0x34 + r16 img 0x2A * 12) = l := by
    rw [addExtent, r32_w16_of_disjoint (by omega), r32_w32_of_disjoint (by omega),
      r32_w16_of_disjoint (by omega), r32_w32_self, Nat.mod_eq_of_lt (by omega)]
  rw [hold, List.findSome?_singleton, extentFind, heb, extentAt_addExtent hn hfirst]
  dsimp only
  rw [u32, Nat.mod_eq_of_lt hl]
  by_cases hb : l ≤ b ∧ b < l + n
  · rw [if_neg (by omega), if_pos hb]
  · rw [if_pos (by omega), if_neg hb]

theorem mapFlat_addExtent {l n first : ℕ} (hf : Flat g img) (hmagic : r16 img 0x28 = kExtMagic)
    (he : r16 img 0x2A < 4) (hn : n ≤ 32767) (hfirst : first + n < 2 ^ 32) (hl : l + n < 2 ^ 32)
    (b : ℕ) : mapFlat (addExtent img l n first) b =
      (mapFlat img b).or (if l ≤ b ∧ b < l + n then some (first + (b - l)) else none) := by
  rw [mapFlat_addExtent_slot hmagic he hn (by omega) hl, hf.high he, Nat.zero_mul, Nat.zero_or]
  congr 1
  split_ifs
  · rw [u32, Nat.mod_eq_of_lt (by omega)]
  · rfl

end Fs

end Aurisys
