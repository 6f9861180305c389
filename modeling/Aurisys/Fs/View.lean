import Aurisys.Fs.Owned
import Aurisys.Fs.Reads
import Mathlib.Data.Nat.ModEq

/-!
# What a file reads as

The bytes of a file that `read` gives are those its map leads to, up to the first block that is not
there. So they depend on the image of the inode and on the blocks that it covers, and whatever
leaves these alone does not change what is read.

## Main definitions

* `Fs.byteAt` — the byte of a file at a position, if its block is there
* `Fs.readBytes` — what `read` copies
* `Fs.Kept` — the inode and its blocks are as they were

## Main results

* `readBytes_eq`, `exec_getstat`
* `Kept.readBytes`
-/

namespace Aurisys

open Bytes Fallible

namespace Fs

variable {s s' t : Fs} {img : Bytes} {ino len off : ℕ}

/-- The byte at a position. -/
def byteAt (s : Fs) (img : Bytes) (i : ℕ) : Option UInt8 :=
  (mapFlat img (i / s.geo.bs)).map fun p => s.disk p (i % s.geo.bs)

/-- Those in front of the first that is not there. -/
def upTo : List (Option UInt8) → List UInt8
  | some c :: l => c :: upTo l
  | _ => []

/-- What `read` copies. -/
def readBytes (s : Fs) (ino len off : ℕ) : List UInt8 := (exec (read ino len off) s).1.getD []

/-- A step inside a block. -/
theorem div_mod_add {a k m : ℕ} (h : a % m + k < m) :
    (a + k) / m = a / m ∧ (a + k) % m = a % m + k := by
  have hk : k < m := by omega
  have hmod : k % m = k := Nat.mod_eq_of_lt hk
  rw [← hmod] at h
  constructor
  · rw [Nat.add_div_eq_of_add_mod_lt h, Nat.div_eq_of_lt hk]
    rfl
  · rw [Nat.add_mod_of_add_mod_lt h, hmod]

theorem upTo_append (f : ℕ → UInt8) (l : List ℕ) (l' : List (Option UInt8)) :
    upTo ((l.map fun i => some (f i)) ++ l') = l.map f ++ upTo l' := by
  induction l with
  | nil => rfl
  | cons i l ih => exact congrArg (f i :: ·) ih

theorem upTo_some (f : ℕ → UInt8) (l : List ℕ) : upTo (l.map fun i => some (f i)) = l.map f := by
  have h := upTo_append f l []
  rw [List.append_nil] at h
  exact h.trans (List.append_nil _)

theorem byteAt_core (h : s'.core = s.core) (img : Bytes) (i : ℕ) :
    s'.byteAt img i = s.byteAt img i := by
  rw [byteAt, byteAt, core_disk h, core_geo h]

theorem inodeSize_lt (img : Bytes) : inodeSize img < 2 ^ 32 := by
  rw [inodeSize]
  split
  · decide
  · exact r32_lt _ _

/-- A byte of a file whose blocks are given. -/
def byteIn (f : ℕ → Option Bytes) (bs i : ℕ) : Option UInt8 := (f (i / bs)).map fun x => x (i % bs)

/-- **The loop of `read`** copies one block after the other. What a block is read as may depend on
what has been found out about the file before, and reading one does not change that. -/
theorem wp_readLoop_of {I : Fs → Prop} {f : ℕ → Option Bytes} {bs : ℕ} (hbs : 0 < bs)
    (hgeo : ∀ t, I t → t.geo.bs = bs)
    (hread : ∀ b t, I t → wp (do
        let phys ← mapLblock b
        readB1 phys)
      (fun _ t' => I t' ∧ ∃ x, f b = some x ∧ ∀ a < bs, t'.b1 a = x a)
      (fun t' => I t' ∧ f b = none) t)
    {fuel : ℕ} {out : List UInt8} (hfuel : len ≤ out.length + fuel) (hlt : off + len < 2 ^ 32)
    (hI : I t) :
    wp (readLoop len off fuel out) (fun r t' => I t' ∧ r = out ++ upTo
      ((List.range (len - out.length)).map fun i => byteIn f bs (off + out.length + i)))
      (fun _ => False) t := by
  induction fuel generalizing out t with
  | zero =>
    have hz : len - out.length = 0 := by omega
    rw [readLoop, wp_pure, hz]
    exact ⟨hI, (List.append_nil out).symm⟩
  | succ fuel ih =>
    rw [readLoop, wp_bind, wp_get]
    dsimp only
    have hat : len > out.length → u32 (off + out.length) = off + out.length :=
      fun h => Nat.mod_eq_of_lt (by omega)
    rw [wp_ite]
    constructor
    · intro hlen
      rw [hat hlen, hgeo t hI]
      generalize hb : (off + out.length) / bs = b
      generalize hin : (off + out.length) % bs = inblk
      have hin_lt : inblk < bs := hin ▸ Nat.mod_lt _ hbs
      rw [wp_bind, wp_attempt]
      refine wp_mono (hread b t hI) ?_ ?_
      · rintro _ t' ⟨hI', x, hx, hbytes⟩
        rw [wp_bind, wp_get, wp_ite]
        refine ⟨fun _ => ?_, fun h => absurd rfl h⟩
        generalize htake : min (bs - inblk) (len - out.length) = take
        have hcopied : ((List.range take).map fun i => t'.b1 (inblk + i)) =
            (List.range take).map fun i => x (inblk + i) := by
          refine List.map_congr_left fun i hi => ?_
          have hi := List.mem_range.mp hi
          exact hbytes _ (by omega)
        rw [hcopied]
        have hlen' : (out ++ (List.range take).map fun i => x (inblk + i)).length
            = out.length + take := by simp
        refine wp_mono (ih (by rw [hlen']; omega) hI') ?_ fun _ => id
        rintro r s₁ ⟨hI₁, rfl⟩
        refine ⟨hI₁, ?_⟩
        rw [hlen']
        -- The bytes that are left are those of this block and then the rest.
        have hsplit : List.range (len - out.length)
            = List.range take ++ (List.range (len - (out.length + take))).map (take + ·) := by
          rw [← List.range_add]
          congr 1
          omega
        have hhere : ((List.range take).map fun i => byteIn f bs (off + out.length + i))
            = (List.range take).map fun i => some (x (inblk + i)) := by
          refine List.map_congr_left fun i hi => ?_
          have hi := List.mem_range.mp hi
          obtain ⟨hq, hr⟩ := div_mod_add (a := off + out.length) (k := i) (m := bs) (by omega)
          rw [byteIn, hq, hr, hb, hin, hx]
          rfl
        rw [hsplit, List.map_append, List.map_map, hhere, upTo_append, List.append_assoc]
        congr 4
        funext i
        refine congrArg (byteIn f bs) ?_
        dsimp only
        omega
      · rintro t' ⟨hI', hnone⟩
        rw [wp_bind, wp_get, wp_ite]
        refine ⟨fun h => absurd h (by simp), fun _ => ⟨hI', ?_⟩⟩
        obtain ⟨n, hn⟩ : ∃ n, len - out.length = n + 1 := ⟨len - out.length - 1, by omega⟩
        have hfirst : byteIn f bs (off + out.length) = none := by rw [byteIn, hb, hnone]; rfl
        rw [hn, List.range_succ_eq_map, List.map_cons, Nat.add_zero, hfirst, upTo]
        · exact (List.append_nil out).symm
        · exact fun _ _ h => Option.some_ne_none _ (List.cons.inj h).1.symm
    · intro hlen
      have hz : len - out.length = 0 := by omega
      rw [wp_pure, hz]
      exact ⟨hI, (List.append_nil out).symm⟩

/-- The loop of `read` on a file with a flat image. -/
theorem wp_readLoop (hg : s.geo.Ok) (hf : Flat s.geo img) (hm : IsFile img) {fuel : ℕ}
    {out : List UInt8} (hfuel : len ≤ out.length + fuel) (hlt : off + len < 2 ^ 32)
    (hcore : t.core = s.core) (hino : SameMap t.ino img) :
    wp (readLoop len off fuel out) (fun r _ => r = out ++ upTo ((List.range (len - out.length)).map
      fun i => s.byteAt img (off + out.length + i))) (fun _ => False) t := by
  have hbyte : s.byteAt img = byteIn (fun b => (mapFlat img b).map s.disk) s.geo.bs := by
    funext q
    rw [byteAt, byteIn, Option.map_map]
    rfl
  rw [hbyte]
  refine wp_mono (wp_readLoop_of (I := fun t => t.core = s.core ∧ SameMap t.ino img) hg.bs_pos
    (fun t ht => congrArg Geometry.bs (core_geo ht.1)) ?_ hfuel hlt ⟨hcore, hino⟩)
    (fun _ _ h => h.2) fun _ => id
  rintro b t ⟨hcore, hino⟩
  have hgeo := core_geo hcore
  have hflat : Flat t.geo t.ino := by
    rw [hgeo]
    exact hino.flat hf
  rw [wp_bind]
  refine wp_mapLblock hflat (.inl (hino.isFile.mpr hm)) (fun phys hphys => ?_) fun hnone => ?_
  · rw [hino.mapFlat hf] at hphys
    have hon := hf.mapFlat_lt (by have := hg.blocks_le; omega) hphys
    rw [wp_readB1, hgeo]
    refine ⟨fun _ => ⟨⟨Eq.trans rfl hcore, hino⟩, s.disk phys, by rw [hphys]; rfl, fun a ha => ?_⟩,
      fun h => absurd hon h⟩
    have hcopy := memcpy_of_lt (m := t.b1) (p := 0) (s := t.disk phys) (q := 0) ha
    rw [Nat.zero_add] at hcopy
    rw [read1, setB1_b1, hgeo, hcopy, core_disk hcore]
  · rw [hino.mapFlat hf] at hnone
    exact ⟨⟨hcore, hino⟩, by rw [hnone]; rfl⟩

/-- **What `read` copies.** -/
theorem readBytes_eq (hg : s.geo.Ok) (hi : s.geo.IsIno ino) (hf : Flat s.geo (s.inodes ino))
    (len off : ℕ) : s.readBytes ino len off =
      if IsFile (s.inodes ino) then
        upTo ((List.range (min len (inodeSize (s.inodes ino) - off))).map
          fun i => s.byteAt (s.inodes ino) (off + i))
      else [] := by
  have hsame := loaded_ino hg hi
  have hsize := hsame.inodeSize
  have hfile := hsame.sameMap.isFile
  suffices h : wp (read ino len off) (fun r _ => r = if IsFile (s.inodes ino) then
      upTo ((List.range (min len (inodeSize (s.inodes ino) - off))).map
        fun i => s.byteAt (s.inodes ino) (off + i)) else [])
      (fun _ => [] = if IsFile (s.inodes ino) then
        upTo ((List.range (min len (inodeSize (s.inodes ino) - off))).map
          fun i => s.byteAt (s.inodes ino) (off + i)) else []) s by
    rw [readBytes]
    rw [wp] at h
    generalize exec (read ino len off) s = r at h
    rcases r with ⟨_ | l, s'⟩
    · exact h
    · exact h
  rw [read, wp_bind, wp_loadInode hg]
  refine ⟨fun _ => ?_, fun h => absurd hi h⟩
  rw [wp_bind, wp_get, wp_bind, wp_guard, hfile]
  refine ⟨fun hm => ?_, fun hm => by rw [if_neg hm]⟩
  rw [if_pos hm, hsize]
  rw [wp_bind, wp_guard]
  have hlt := inodeSize_lt (s.inodes ino)
  constructor
  · intro hoff
    have hcore : (s.loaded ino).core = s.core := rfl
    refine wp_mono (wp_readLoop hg hf hm ?_ ?_ hcore hsame.sameMap) (fun _ _ h => h)
      fun _ => False.elim
    · exact (Nat.zero_add _).ge
    · omega
  · intro hoff
    have hz : inodeSize (s.inodes ino) - off = 0 := by omega
    rw [hz, Nat.min_zero]
    rfl

/-! ## What stays -/

/-- The inode is as it was, and so are its blocks. -/
structure Kept (s s' : Fs) (ino : ℕ) : Prop where
  geo : s'.geo = s.geo
  image : Same (s'.inodes ino) (s.inodes ino)
  blocks : ∀ i b, Covers (s.inodes ino) i b → s'.disk b = s.disk b

/-- What `getstat` makes of an image. -/
def statOf (ino : ℕ) (img : Bytes) : Stat :=
  ⟨ino, inodeSize img, r16 img 0, r32 img 0x1C, r16 img 0x1A⟩

theorem Same.statOf {a b : Bytes} (h : Same a b) (ino : ℕ) : statOf ino a = statOf ino b := by
  rw [Fs.statOf, Fs.statOf, h.inodeSize, h.r16 (by omega), h.r32 (by omega), h.r16 (by omega)]

theorem exec_getstat (hg : s.geo.Ok) (hi : s.geo.IsIno ino) :
    (exec (getstat ino) s).1 = some (statOf ino (s.inodes ino)) := by
  have h : wp (getstat ino) (fun st _ => st = statOf ino (s.inodes ino)) (fun _ => False) s := by
    rw [getstat, wp_bind, wp_loadInode hg]
    exact ⟨fun _ => (loaded_ino hg hi).statOf ino, fun hn => hn hi⟩
  obtain ⟨st, s', hex, rfl⟩ := exec_of_wp h
  rw [hex]

namespace Kept

variable (h : Kept s s' ino)

include h

theorem isIno (hi : s.geo.IsIno ino) : s'.geo.IsIno ino := h.geo ▸ hi

theorem flat (hf : Flat s.geo (s.inodes ino)) : Flat s'.geo (s'.inodes ino) :=
  h.geo ▸ h.image.sameMap.flat hf

/-- The map leads to the same bytes. -/
theorem disk (hg : s.geo.Ok) (hf : Flat s.geo (s.inodes ino)) {b phys : ℕ}
    (hb : mapFlat (s.inodes ino) b = some phys) : s'.disk phys = s.disk phys := by
  have hlt := hg.blocks_le
  obtain ⟨i, hi⟩ := covers_of_mapFlat hf (by omega) hb
  exact h.blocks i phys hi

theorem mapFlat (hf : Flat s.geo (s.inodes ino)) (b : ℕ) :
    Fs.mapFlat (s'.inodes ino) b = Fs.mapFlat (s.inodes ino) b := h.image.sameMap.mapFlat hf b

theorem byteAt (hg : s.geo.Ok) (hf : Flat s.geo (s.inodes ino)) (i : ℕ) :
    s'.byteAt (s'.inodes ino) i = s.byteAt (s.inodes ino) i := by
  rw [Fs.byteAt, Fs.byteAt, h.geo, h.mapFlat hf]
  cases hb : Fs.mapFlat (s.inodes ino) (i / s.geo.bs) with
  | none => rfl
  | some phys => rw [Option.map_some, Option.map_some, h.disk hg hf hb]

/-- **It reads as before.** -/
theorem readBytes (hg : s.geo.Ok) (hi : s.geo.IsIno ino) (hf : Flat s.geo (s.inodes ino))
    (len off : ℕ) : s'.readBytes ino len off = s.readBytes ino len off := by
  rw [readBytes_eq (h.geo ▸ hg) (h.isIno hi) (h.flat hf), readBytes_eq hg hi hf,
    h.image.inodeSize]
  simp only [h.byteAt hg hf, h.image.sameMap.isFile]

theorem getstat (hg : s.geo.Ok) (hi : s.geo.IsIno ino) :
    (exec (getstat ino) s').1 = (exec (getstat ino) s).1 := by
  rw [exec_getstat (h.geo ▸ hg) (h.isIno hi), exec_getstat hg hi, h.image.statOf]

end Kept

end Fs

end Aurisys
