import Aurisys.Fs.Gap

/-!
# A `write_at` that fails

Nothing is undone when `write_at` gives up. Where it has taken blocks they stay marked, and where it
has filled a part of the gap the file stays larger. So it has left things as they were only if it
came to a byte that is refused a block before it had taken any, and if what it had written up to
there was what the file had anyway, or is behind its end.

## Main definitions

* `Unchanged` — `getstat`, `read`, the bitmap and the counts say what they said before
* `Harmless` — when that is so

## Main results

* `unchanged_iff`
-/

namespace Aurisys

open Bytes Fallible

namespace Fs

/-- The size and the contents of the file, the block bitmap and the free counts are what they
were. -/
structure Unchanged (s : Fs) (ino : ℕ) (u : Fs) : Prop where
  /-- The size is what it was, -/
  stat : (exec (getstat ino) u).1 = (exec (getstat ino) s).1
  /-- the contents are, -/
  read : ∀ len off, u.readBytes ino len off = s.readBytes ino len off
  /-- the bitmap is, -/
  bitmap : ∀ b < s.geo.blocks, u.Used b ↔ s.Used b
  /-- and so are the counts in memory -/
  freeBlocks : u.freeBlocks = s.freeBlocks
  freeInodes : u.freeInodes = s.freeInodes
  /-- and on the disk. -/
  desc : u.disk s.geo.descBlock = s.disk s.geo.descBlock
  sbBlock : u.disk s.geo.sbBlock = s.disk s.geo.sbBlock

/-- A byte is refused a block, and those in front of it that are in the file are what it has
there. -/
def RefusedSame (s : Fs) (ino : ℕ) (buf : Bytes) (off len : ℕ) : Prop :=
  ∃ d, Refused s ino off len d ∧ ∀ e < d, place off e < inodeSize (s.inodes ino) →
    s.byteAt (s.inodes ino) (place off e) = some (buf e)

/-- The block the file ends in is not there, and the file cannot get it. -/
def RefusedFirst (s : Fs) (ino : ℕ) : Prop :=
  mapFlat (s.inodes ino) (inodeSize (s.inodes ino) / s.geo.bs) = none ∧
    (4 ≤ r16 (s.inodes ino) 0x2A ∨ s.freeRun 1 = none)

/-- A call that fails has left things as they were. -/
def Harmless (s : Fs) (ino : ℕ) (buf : Bytes) (off len : ℕ) : Prop :=
  if off ≤ inodeSize (s.inodes ino) then RefusedSame s ino buf off len else RefusedFirst s ino

variable {s u : Fs} {buf : Bytes} {ino off len d : ℕ}

/-- One byte is read. -/
theorem readBytes_one (hg : s.geo.Ok) (hi : s.geo.IsIno ino) (hf : Flat s.geo (s.inodes ino))
    (hfile : IsFile (s.inodes ino)) {q : ℕ} {c : UInt8} (hq : q < inodeSize (s.inodes ino))
    (hc : s.byteAt (s.inodes ino) q = some c) : s.readBytes ino 1 q = [c] := by
  have hone : min 1 (inodeSize (s.inodes ino) - q) = 1 := by omega
  rw [readBytes_eq hg hi hf, if_pos hfile, hone, List.range_one,
    List.map_singleton, Nat.add_zero, hc]
  rfl

theorem Grew.self (hv : Valid s) (hl : s.Live ino) :
    Grew s s.table ino (s.inodes ino) s (s.inodes ino) := by
  refine .refl ?_
  rw [← table_of_live hl, Function.update_eq_self]
  exact hv

section

variable (hv : Valid s) (hi : s.geo.IsIno ino) (hl : s.Live ino) (hfile : IsFile (s.inodes ino))

include hv hi hl hfile

/-- What is written where a byte is refused a block before any has been taken. -/
theorem unchanged_of_poured (hp : Poured s (s.inodes ino) buf off d u)
    (hsame : ∀ e < d, place off e < inodeSize (s.inodes ino) →
      s.byteAt (s.inodes ino) (place off e) = some (buf e)) : Unchanged s ino u := by
  have hT : s.table ino = s.inodes ino := table_of_live hl
  have hgrew := Grew.self hv hl
  have hgeo := hgrew.poured_geo hp
  have hinodes := hgrew.poured_inodes hp hv.geo
  have hflat : Flat s.geo (s.inodes ino) := hT ▸ hv.flat ino
  have hbyte : ∀ q < inodeSize (s.inodes ino),
      u.byteAt (s.inodes ino) q = s.byteAt (s.inodes ino) q := by
    intro q hq
    by_cases hin : ∃ e < d, place off e = q
    · obtain ⟨e, he, rfl⟩ := hin
      have hc := hsame e he hq
      rw [hc]
      refine hgrew.poured_fresh hp he (byteAt_ne_none.mp ?_)
      rw [hc]
      exact Option.some_ne_none _
    · cases hc : s.byteAt (s.inodes ino) q with
      | none =>
        rw [byteAt, Option.map_eq_none_iff] at hc
        rw [byteAt, hgeo, hc]
        rfl
      | some c => exact hgrew.poured_old hp (fun e he hq' => hin ⟨e, he, hq'⟩) hc
  refine ⟨?_, fun len off => ?_, fun b _ => hgrew.poured_used hp, ?_, ?_, ?_, ?_⟩
  · rw [exec_getstat (hgeo ▸ hv.geo) (hgeo ▸ hi), exec_getstat hv.geo hi, hinodes]
  · rw [readBytes_eq (hgeo ▸ hv.geo) (hgeo ▸ hi) (by rw [hinodes, hgeo]; exact hflat),
      readBytes_eq hv.geo hi hflat, hinodes, if_pos hfile, if_pos hfile]
    refine congrArg upTo (List.map_congr_left fun i hi => hbyte _ ?_)
    have := List.mem_range.mp hi
    omega
  · exact (of_core Fs.freeBlocks (fun _ => rfl) hp.core).trans rfl
  · exact (of_core Fs.freeInodes (fun _ => rfl) hp.core).trans rfl
  · exact hgrew.poured_single hp Geometry.Ok.desc_mem hv.geo.desc_ne_bbb
  · exact hgrew.poured_single hp Geometry.Ok.sb_mem (hv.geo.sb_ne (by simp))

/-- **A call that has failed without filling a gap.** -/
theorem leaves_unchanged_iff (h : Leaves s ino buf off len u) :
    Unchanged s ino u ↔ RefusedSame s ino buf off len := by
  constructor
  · intro hun
    rcases h.what with ⟨⟨b, hb, hfree, hused⟩, -⟩ | ⟨d, hrefused, hp⟩
    · exact absurd ((hun.bitmap b hb).mp hused) hfree
    · refine ⟨d, hrefused, fun e he hq => ?_⟩
      have hgrew := Grew.self hv hl
      have hgeo := hgrew.poured_geo hp
      have hinodes := hgrew.poured_inodes hp hv.geo
      have hmap := hrefused.1.mapped e he
      obtain ⟨c, hc⟩ := Option.ne_none_iff_exists'.mp (byteAt_ne_none.mpr hmap)
      have hnew := hgrew.poured_fresh hp he hmap
      -- The byte is read before and after.
      have hread := hun.read 1 (place off e)
      have hflat : Flat s.geo (s.inodes ino) := table_of_live hl ▸ hv.flat ino
      rw [readBytes_one hv.geo hi hflat hfile hq hc, readBytes_one (hgeo ▸ hv.geo) (hgeo ▸ hi)
        (by rw [hinodes, hgeo]; exact hflat) (hinodes ▸ hfile) (hinodes ▸ hq)
        (hinodes ▸ hnew)] at hread
      rw [hc, (List.cons.inj hread).1]
  · rintro ⟨d, hrefused, hsame⟩
    rcases h.what with ⟨-, hno⟩ | ⟨d', hrefused', hp⟩
    · exact absurd hrefused (hno d)
    · obtain rfl := hrefused.1.unique hrefused'.1
      exact unchanged_of_poured hv hi hl hfile hp hsame

end

/-! ## Behind the end -/

theorem place_of_lt {i : ℕ} (h : off + i < 2 ^ 32) : place off i = off + i := Nat.mod_eq_of_lt h

theorem needed_one_arith {bs size chunk : ℕ} (hbs : 0 < bs) (hbs' : bs ≤ 4096) (hpos : 0 < chunk)
    (hlt : size < 2 ^ 32) (hchunk : chunk ≤ bs - size % bs) :
    (size + chunk + (2 ^ 32 - size / bs * bs) + bs - 1) % 2 ^ 32 / bs = 1 := by
  have hq : size / bs * bs + size % bs = size := Nat.div_add_mod' size bs
  have hr : size % bs < bs := Nat.mod_lt _ hbs
  have hx : size + chunk + (2 ^ 32 - size / bs * bs) + bs - 1
      = 2 ^ 32 + (bs + (size % bs + chunk - 1)) := by
    omega
  rw [hx, Nat.add_mod_left, Nat.mod_eq_of_lt (by omega), Nat.add_div_left _ hbs,
    Nat.div_eq_of_lt (by omega)]

/-- The first piece of the gap is in one block, and takes one. -/
theorem needed_firstChunk {g : Geometry} {size : ℕ} (hg : g.Ok) (hsize : size < off)
    (hoff : off < 2 ^ 32) : needed g size (firstChunk g.bs size off) 0 = 1 := by
  have hplace : place size 0 = size := place_of_lt (by omega)
  have hmod : size % g.bs < g.bs := Nat.mod_lt _ hg.bs_pos
  have hchunk : 0 < firstChunk g.bs size off ∧ firstChunk g.bs size off ≤ g.bs - size % g.bs := by
    rw [firstChunk]
    omega
  rw [needed, hplace, u32]
  exact needed_one_arith hg.bs_pos hg.bs_le hchunk.1 (by omega) hchunk.2

theorem place_zero (h : off < 2 ^ 32) : place off 0 = off := place_of_lt h

/-- In a range inside one block the first byte is the one without a block, or none is. -/
theorem Hole.first {img : Bytes} (h : Hole s.geo img off len d) (hg : s.geo.Ok)
    (hoff : off < 2 ^ 32) (hin : off % s.geo.bs + len ≤ s.geo.bs) :
    d = 0 ∧ mapFlat img (off / s.geo.bs) = none := by
  have hlt : off % s.geo.bs + d < s.geo.bs := lt_of_lt_of_le (Nat.add_lt_add_left h.lt _) hin
  have hzero := place_zero hoff
  rw [← hzero] at hlt
  have hblock := block_add hg hlt
  rw [Nat.zero_add, hzero] at hblock
  have hnone := h.hole
  rw [hblock] at hnone
  refine ⟨by_contra fun hpos => ?_, hnone⟩
  refine h.mapped 0 (Nat.pos_of_ne_zero hpos) ?_
  rw [hzero]
  exact hnone

/-- **Where the first piece is refused.** -/
theorem refused_firstChunk (hv : Valid s) (hgap : inodeSize (s.inodes ino) < off)
    (hoff : off < 2 ^ 32) :
    (∃ d, Refused s ino (inodeSize (s.inodes ino))
      (firstChunk s.geo.bs (inodeSize (s.inodes ino)) off) d) ↔ RefusedFirst s ino := by
  have hneed := needed_firstChunk hv.geo hgap hoff
  have hlt := hgap.trans hoff
  have hzero := place_zero hlt
  have hchunk : 0 < firstChunk s.geo.bs (inodeSize (s.inodes ino)) off ∧
      inodeSize (s.inodes ino) % s.geo.bs + firstChunk s.geo.bs (inodeSize (s.inodes ino)) off
        ≤ s.geo.bs := by
    have hmod : inodeSize (s.inodes ino) % s.geo.bs < s.geo.bs := Nat.mod_lt _ hv.geo.bs_pos
    rw [firstChunk]
    omega
  constructor
  · rintro ⟨d, hhole, hno⟩
    obtain ⟨rfl, hnone⟩ := hhole.first hv.geo hlt hchunk.2
    refine ⟨hnone, ?_⟩
    by_contra hn
    rw [not_or, Nat.not_le] at hn
    obtain ⟨first, hfirst⟩ := Option.ne_none_iff_exists'.mp hn.2
    refine hno first ⟨?_, hn.1, ?_, ?_⟩
    · rw [hzero]
    · rw [hneed]
      decide
    · rw [hneed]
      exact hfirst
  · rintro ⟨hnone, hrefused⟩
    refine ⟨0, ⟨hchunk.1, fun i hi => absurd hi (Nat.not_lt_zero i), ?_⟩, fun first ha => ?_⟩
    · rw [hzero]
      exact hnone
    · have hrun := ha.run
      rw [hneed] at hrun
      rcases hrefused with he | hfree
      · exact absurd ha.entries (Nat.not_lt.mpr he)
      · rw [hfree] at hrun
        exact Option.some_ne_none _ hrun.symm

/-- **When a `write_at` that fails has changed nothing.** -/
theorem unchanged_iff (hv : Valid s) (hi : s.geo.IsIno ino) (hl : s.Live ino)
    (hfile : IsFile (s.inodes ino)) (hmagic : r16 (s.inodes ino) 0x28 = kExtMagic)
    (hoff : off < 2 ^ 32) (hlen : len < 2 ^ 32) (h : exec (writeAt ino buf off len) s = (none, u)) :
    Unchanged s ino u ↔ Harmless s ino buf off len := by
  by_cases hin : off ≤ inodeSize (s.inodes ino)
  · rw [Harmless, if_pos hin]
    exact leaves_unchanged_iff hv hi hl hfile
      (wp_of_none (wp_writeAt_inside hv hi hl hfile hmagic hoff hlen hin) h).1
  · rw [Harmless, if_neg hin]
    have hgap : inodeSize (s.inodes ino) < off := Nat.lt_of_not_le hin
    rw [← refused_firstChunk hv hgap hoff]
    have hbs := hv.geo.bs_pos
    have hchunks : ∀ c ∈ gapChunks s.geo.bs off (off - inodeSize (s.inodes ino) + 1)
        (inodeSize (s.inodes ino)), c.2 ≤ s.geo.bs := by
      intro c hc
      have := (mem_gapChunks hc).2.2
      omega
    obtain ⟨⟨hgeo, hleaves⟩, -⟩ :=
      wp_of_none (wp_writeAt_behind hv hi hl hfile hmagic hoff hlen hgap hchunks) h
    rcases hleaves with ⟨hlarger, hno⟩ | hleaves
    · constructor
      · intro hun
        have hstat := hun.stat
        rw [exec_getstat (hgeo ▸ hv.geo) (hgeo ▸ hi), exec_getstat hv.geo hi] at hstat
        have hsize := congrArg Stat.size (Option.some.inj hstat)
        exact absurd hsize hlarger.ne'
      · rintro ⟨d, hd⟩
        exact absurd hd (hno d)
    · rw [leaves_unchanged_iff hv hi hl hfile hleaves, RefusedSame]
      refine exists_congr fun d => and_iff_left_of_imp fun hrefused e he hlt => ?_
      have hlen := hrefused.1.lt
      have hplace : place (inodeSize (s.inodes ino)) e = inodeSize (s.inodes ino) + e := by
        refine place_of_lt ?_
        rw [firstChunk] at hlen
        omega
      omega

theorem unchanged_filed : Unchanged filed 12 (exec (writeAt 12 (fun _ => 97) 3 9000) filed).2 ↔
    Harmless filed 12 (fun _ => 97) 3 9000 :=
  have hrun : (exec (writeAt 12 (fun _ => 97) 3 9000) filed).1 = none := by decide +kernel
  unchanged_iff valid_filed (by decide) (by decide +kernel) (by decide +kernel) (by decide +kernel)
    (by decide) (by decide) (exec_eq_none hrun)

/-- There are not enough blocks for the whole range, but there is one for its beginning. -/
theorem overwritten_and_refused : Valid filed ∧ filed.Live 12 ∧ IsFile (filed.inodes 12) ∧
    (exec (writeAt 12 (fun _ => 97) 0 9000) filed).1 = none ∧
    ¬Unchanged filed 12 (exec (writeAt 12 (fun _ => 97) 0 9000) filed).2 := by
  refine ⟨valid_filed, by decide +kernel, by decide +kernel, by decide +kernel, fun h => ?_⟩
  have hbefore : filed.readBytes 12 1 0 = [120] := by decide +kernel
  have hafter : (exec (writeAt 12 (fun _ => 97) 0 9000) filed).2.readBytes 12 1 0 = [97] := by
    decide +kernel
  have hread := h.read 1 0
  rw [hbefore, hafter] at hread
  exact absurd hread (by decide)

end Fs

end Aurisys
