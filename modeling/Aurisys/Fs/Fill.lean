import Aurisys.Fs.Create
import Aurisys.Fs.Splice

/-!
# A file that is written whole

`write_file` makes up the image of a file and writes its blocks before anything leads to them: each
round of `write_blocks` takes a run, fills it with the next bytes, the last block up to its end with
zeroes, and enters the run into the image as an extent. What the image then leads to is the data,
byte by byte, and no block that was in use has been written.

The number of rounds is limited by the four slots of the image, and where there is no run that is
long enough the call gives up. So it may fail, but what it has made up when it does not is all of
the data.

## Main definitions

* `padded` — the data, and zeroes behind it
* `Framed` — no metadata but the block bitmap has changed
* `Laid` — the image leads to some blocks of the data, and to no others
* `Stores` — an inode is a file that has the data

## Main results

* `wp_writeFresh_stores`
* `Stores.contents_eq`, `Stores.readBytes`
-/

namespace Aurisys

open Bytes Fallible

namespace Fs

/-- The data, and zeroes behind it. -/
def padded (data : Bytes) (len q : ℕ) : UInt8 := if q < len then data q else 0

/-- The blocks of a run hold the data from `d` on, up to the block `m` of it. -/
structure RunFilled (s : Fs) (data : Bytes) (len first d n m : ℕ) (t : Fs) : Prop where
  geo : t.geo = s.geo
  stack : t.stack = s.stack
  ino : t.ino = s.ino
  other : ∀ b, ¬Run first n b → t.disk b = s.disk b
  here : ∀ i < m, ∀ a < s.geo.bs, t.disk (first + i) a = padded data len (d + i * s.geo.bs + a)

/-- No metadata but the block bitmap has changed. -/
structure Framed (s₀ s : Fs) : Prop where
  stack : s.stack = s₀.stack
  disk : ∀ b, s₀.geo.IsMeta b → b ≠ s₀.geo.bbb → s.disk b = s₀.disk b

/-- The image in `g_ino` began as `img`. It leads to the first `done` blocks of the data and to no
others. -/
structure Laid (s₀ : Fs) (img data : Bytes) (len done : ℕ) (s : Fs) : Prop extends Framed s₀ s where
  head : ∀ a, a < 0x2A ∨ 100 ≤ a → s.ino a = img a
  here : ∀ b < done, ∃ p, mapFlat s.ino b = some p ∧
    ∀ a < s.geo.bs, s.disk p a = padded data len (b * s.geo.bs + a)
  behind : ∀ b, done ≤ b → mapFlat s.ino b = none

/-- The inode is a file of `len` bytes, and these are the data. -/
structure Stores (s : Fs) (ino : ℕ) (data : Bytes) (len : ℕ) : Prop where
  file : IsFile (s.inodes ino)
  magic : r16 (s.inodes ino) 0x28 = kExtMagic
  size : inodeSize (s.inodes ino) = len
  bytes : ∀ q < len, s.byteAt (s.inodes ino) q = some (data q)

/-- The image in `g_ino` is that of a file with the data, and it is all that has been prepared. -/
structure Prepared (s₀ : Fs) (data : Bytes) (len : ℕ) (s : Fs) : Prop extends Framed s₀ s where
  file : IsFile s.ino
  magic : r16 s.ino 0x28 = kExtMagic
  size : inodeSize s.ino = len
  bytes : ∀ q < len, s.byteAt s.ino q = some (data q)

variable {s s₀ t u : Fs} {T : ℕ → Bytes} {j ino first n len d m done : ℕ} {k : ℤ} {img data : Bytes}

/-! ## One run -/

/-- What `write_blocks` makes up a block as. -/
theorem filled_apply (b data : Bytes) {len q bs a : ℕ} (ha : a < bs) :
    memcpy (memset b 0 0 bs) 0 data q (min (len - q) bs) a = padded data len (q + a) := by
  rw [padded]
  by_cases hin : q + a < len
  · rw [if_pos hin, memcpy_zero_of_lt (by omega)]
  · rw [if_neg hin, memcpy_of_lt_or_ge (by omega), memset, if_pos ⟨Nat.zero_le a, by omega⟩]

/-- One block of a run is written. -/
theorem RunFilled.step (h : RunFilled s data len first d n m t) (hm : m < n) {b : Bytes}
    (hb : ∀ a < s.geo.bs, b a = padded data len (d + m * s.geo.bs + a)) :
    RunFilled s data len first d n (m + 1) ((t.setB1 b).putBlock (first + m) b) where
  geo := h.geo
  stack := h.stack
  ino := h.ino
  other c hc := by
    have hne : c ≠ first + m := by
      rintro rfl
      exact hc ⟨by omega, by omega⟩
    rw [putBlock_eq]
    exact (Function.update_of_ne hne _ _).trans (h.other c hc)
  here i hi a ha := by
    rw [putBlock_eq]
    by_cases hlast : i = m
    · subst hlast
      refine (congrFun (Function.update_self (first + i) _ _) a).trans ?_
      change memcpy _ 0 b 0 t.geo.bs a = _
      rw [h.geo, memcpy_zero_of_lt ha, Nat.zero_add]
      exact hb a ha
    · have hne : first + i ≠ first + m := by omega
      exact (congrFun (Function.update_of_ne hne _ _) a).trans (h.here i (by omega) a ha)

/-- **A run is filled**, or a part of it. -/
theorem wp_fillBlocks_filled (hle : first + n ≤ s.geo.blocks) (hlt : s.geo.blocks < 2 ^ 32) :
    wp (fillBlocks data len first d n) (fun _ t => RunFilled s data len first d n n t)
      (fun t => ∃ m, RunFilled s data len first d n m t) s := by
  refine wp_forM_range (J := fun m t => RunFilled s data len first d n m t) (fun m hm t ht => ?_)
    ⟨rfl, rfl, rfl, fun _ _ => rfl, fun _ hi => absurd hi (Nat.not_lt_zero _)⟩
  have hblk : u32 (first + m) = first + m := Nat.mod_eq_of_lt (by omega)
  rw [wp_bind, wp_get, wp_bind, wp_modify, wp_writeB1, hblk, ht.geo]
  refine ⟨fun _ => ?_, fun _ => ⟨m, ht.geo, ht.stack, ht.ino, ht.other, ht.here⟩⟩
  exact ht.step hm fun a ha => filled_apply _ data ha

/-! ## The rounds -/

/-- The blocks of a run that was not in use hold no metadata. -/
theorem Framed.filled (h : Framed s₀ s) (hd : Draft s₀ T j Nothing k s)
    (hrun : s.freeRun n = some first)
    (hfill : RunFilled (s.taken first n) data len first d n m t) : Framed s₀ t where
  stack := hfill.stack.trans h.stack
  disk b hb hne := by
    have hgeo := hd.tally.geo
    obtain ⟨-, hle, -⟩ := hd.table.freeRun hrun
    have hrun' : ¬Run first n b :=
      fun hr => (hd.taken hrun).table.spare_not_meta hr (hgeo.symm ▸ hb)
    rw [hfill.other b hrun', taken_disk (hle.trans hd.geo.blocks),
      Function.update_of_ne (hgeo.symm ▸ hne)]
    exact h.disk b hb hne

namespace Laid

variable (hl : Laid s₀ img data len done s)

include hl

theorem magic (hmagic : r16 img 0x28 = kExtMagic) : r16 s.ino 0x28 = kExtMagic := by
  rw [← hmagic]
  exact r16_congr fun _ _ => hl.head _ (by omega)

/-- **One round.** What the image led to has not been written, because it was in use. -/
theorem next (hd : Draft s₀ T j Nothing k s) (hmagic : r16 img 0x28 = kExtMagic)
    (hrun : s.freeRun n = some first) (he : r16 s.ino 0x2A < 4) (hn : n ≤ 32767)
    (hlt : done + n < 2 ^ 32)
    (hfill : RunFilled (s.taken first n) data len first (done * s.geo.bs) n n t) :
    Laid s₀ img data len (done + n) (t.setIno (addExtent t.ino done n first)) := by
  have hg := hd.geo
  have hblocks := hd.table.blocks_lt
  obtain ⟨-, hle, hclear⟩ := hd.table.freeRun hrun
  have hgeo : t.geo = s.geo := hfill.geo
  have hino : t.ino = s.ino := hfill.ino
  have hdisk : ∀ b, ¬Run first n b → b ≠ s.geo.bbb → t.disk b = s.disk b := by
    intro b hb hne
    rw [hfill.other b hb, taken_disk (hle.trans hg.blocks), Function.update_of_ne hne]
  have hmap : ∀ b, mapFlat (addExtent t.ino done n first) b =
      (mapFlat s.ino b).or (if done ≤ b ∧ b < done + n then some (first + (b - done))
        else none) := by
    rw [hino]
    exact mapFlat_addExtent hd.flat (hl.magic hmagic) he hn (by omega) hlt
  have hframed := hl.toFramed.filled hd hrun hfill
  refine ⟨⟨hframed.stack, hframed.disk⟩, fun a ha => ?_, fun b hb => ?_, fun b hb => ?_⟩
  · rw [setIno_ino, hino, addExtent_apply s.ino _ _ _ (by omega) (by omega)]
    exact hl.head a ha
  · by_cases hold : b < done
    · obtain ⟨p, hp, hbytes⟩ := hl.here b hold
      obtain ⟨i, hi⟩ := covers_of_mapFlat hd.flat hblocks hp
      have hused : s.Used p := by
        refine hd.image.own.own_used (j, i) p ?_
        rw [Function.update_self]
        exact hi
      have hsame : t.disk p = s.disk p :=
        hdisk p (fun hr => hclear p hr.1 hr.2 hused) (ne_of_not_meta (hd.mapped hp).1
          Geometry.Ok.bbb_mem).symm
      refine ⟨p, ?_, fun a ha => ?_⟩
      · rw [setIno_ino, hmap, hp]
        rfl
      · change t.disk p a = padded data len (b * t.geo.bs + a)
        rw [hsame, hgeo]
        exact hbytes a (hgeo ▸ ha)
    · refine ⟨first + (b - done), ?_, fun a ha => ?_⟩
      · rw [setIno_ino, hmap, hl.behind b (by omega), if_pos ⟨by omega, hb⟩]
        rfl
      · have hbytes := hfill.here (b - done) (by omega) a (hgeo ▸ ha)
        have hplace : done * s.geo.bs + (b - done) * s.geo.bs = b * s.geo.bs := by
          rw [← Nat.add_mul, Nat.add_sub_cancel' (by omega)]
        change t.disk (first + (b - done)) a = padded data len (b * t.geo.bs + a)
        rw [hgeo, ← hplace]
        exact hbytes
  · rw [setIno_ino, hmap, hl.behind b (by omega), if_neg (by omega)]
    rfl

end Laid

/-- The rounds of `write_blocks` write no metadata but the block bitmap, and leave the mode of the
image. -/
theorem wp_writeBlocksLoop_framed {lstart total fuel used : ℕ} (hd : Draft s₀ T j Nothing k s)
    (hf : Framed s₀ s) :
    wp (writeBlocksLoop data len lstart total fuel done used)
      (fun _ t => Framed s₀ t ∧ r16 t.ino 0 = r16 s.ino 0) (fun t => Framed s₀ t) s := by
  induction fuel generalizing s done used k with
  | zero => exact hf
  | succ fuel ih =>
    rw [writeBlocksLoop, wp_ite]
    refine ⟨fun _ => ⟨hf, rfl⟩, fun _ => ?_⟩
    rw [wp_bind, wp_get, wp_bind, wp_guard]
    refine ⟨fun he => ?_, fun _ => hf⟩
    generalize hchunk : min (total - done) 32767 = chunk
    rw [wp_bind]
    refine wp_allocBlocks hd.geo (fun first hrun => ?_) fun _ => ⟨hf, hf.stack, hf.disk⟩
    obtain ⟨hn, hle, -⟩ := hd.table.freeRun hrun
    have hdt := hd.taken hrun
    have hgeo : (s.taken first chunk).geo = s.geo := rfl
    rw [wp_bind, wp_get, wp_bind]
    refine wp_mono (wp_and (wp_fillBlocks hdt (hgeo ▸ hle))
      (wp_fillBlocks_filled (hgeo ▸ hle) (hgeo ▸ hd.table.blocks_lt))) ?_
      fun t ht => hf.filled hd hrun ht.2.choose_spec
    rintro ⟨⟩ t ⟨⟨ht, hino, hgeot⟩, hfill⟩
    rw [wp_bind, wp_modify]
    have het : r16 t.ino 0x2A < 4 := by
      rw [hino]
      exact he
    have hft := hf.filled hd hrun hfill
    have hmode : r16 (addExtent t.ino (lstart + done) chunk first) 0 = r16 s.ino 0 := by
      rw [show s.ino = t.ino from hino.symm]
      exact r16_congr fun a _ => addExtent_apply t.ino _ _ _ (by omega) (by omega)
    refine wp_mono (ih (ht.addExtent (lstart + done) het ⟨hn, by omega⟩ (by rw [hgeot]; exact hle))
      ⟨hft.stack, hft.disk⟩) (fun _ v hv => ⟨hv.1, hv.2.trans hmode⟩) fun _ => id

/-- **The rounds of `write_blocks`** lay out all of the blocks, if they come to an end. -/
theorem wp_writeBlocksLoop_laid {total fuel used : ℕ} (hd : Draft s₀ T j Nothing k s)
    (hl : Laid s₀ img data len done s) (hmagic : r16 img 0x28 = kExtMagic) (hdone : done ≤ total)
    (htotal : total < 2 ^ 32) : wp (writeBlocksLoop data len 0 total fuel done used)
      (fun r t => r = used + (total - done) ∧ Laid s₀ img data len total t) (fun _ => True) s := by
  induction fuel generalizing s done used k with
  | zero => exact trivial
  | succ fuel ih =>
    rw [writeBlocksLoop, wp_ite]
    refine ⟨fun hend => ?_, fun hlt => ?_⟩
    · obtain rfl : done = total := by omega
      exact ⟨by omega, hl⟩
    · rw [wp_bind, wp_get, wp_bind, wp_guard]
      refine ⟨fun he => ?_, fun _ => trivial⟩
      generalize hchunk : min (total - done) 32767 = chunk
      rw [wp_bind]
      refine wp_allocBlocks hd.geo (fun first hrun => ?_) fun _ => ⟨trivial, trivial⟩
      obtain ⟨hn, hle, -⟩ := hd.table.freeRun hrun
      have hdt := hd.taken hrun
      have hblocks := hd.table.blocks_lt
      have hgeo : (s.taken first chunk).geo = s.geo := rfl
      rw [wp_bind, wp_get, wp_bind]
      -- The run is filled, and it is still a draft.
      refine wp_mono (wp_and (wp_fillBlocks hdt (hgeo ▸ hle)) (wp_fillBlocks_filled
        (hgeo ▸ hle) (hgeo ▸ hblocks)))
        ?_ fun _ _ => trivial
      rintro ⟨⟩ t ⟨⟨ht, hino, hgeot⟩, hfill⟩
      rw [wp_bind, wp_modify, Nat.zero_add]
      have het : r16 t.ino 0x2A < 4 := by
        rw [hino]
        exact he
      have hnext := hl.next hd hmagic hrun he (by omega) (by omega) hfill
      have hdraft := ht.addExtent done het ⟨hn, by omega⟩ (by rw [hgeot]; exact hle)
      refine wp_mono (ih hdraft hnext (by omega)) ?_ fun _ => id
      rintro r v ⟨hr, hv⟩
      exact ⟨by omega, hv⟩

/-- `write_blocks` writes no metadata but the block bitmap, and leaves the mode of the image. -/
theorem wp_writeBlocks_framed {lstart : ℕ} (hd : Draft s₀ T j Nothing k s) (hf : Framed s₀ s) :
    wp (writeBlocks data len lstart) (fun _ t => Framed s₀ t ∧ r16 t.ino 0 = r16 s.ino 0)
      (fun t => Framed s₀ t) s := by
  rw [writeBlocks, wp_bind, wp_get, wp_bind]
  refine wp_mono (wp_writeBlocksLoop_framed hd hf) (fun r t ht => ?_) fun _ => id
  rw [wp_bind, wp_guard]
  exact ⟨fun _ => ht, fun _ => ht.1⟩

/-! ## The whole file -/

/-- The image `write_file` starts with is that of a file without blocks. -/
theorem freshFile_head (len : ℕ) :
    IsFile (freshFile len) ∧ r16 (freshFile len) 0x28 = kExtMagic := by
  constructor
  · rw [IsFile]
    have hmode : r16 (freshFile len) 0 = 0x81A4 := by
      simp (disch := omega) only [freshFile, r16_w16_of_disjoint, r16_w32_of_disjoint, r16_w16_self]
      rfl
    rw [hmode]
    decide
  · simp (disch := omega) only [freshFile, r16_w16_of_disjoint, r16_w16_self]
    rfl

theorem inodeSize_freshFile (hlen : len < 2 ^ 32) : inodeSize (freshFile len) = len := by
  have hlow : r32 (freshFile len) 4 = len := by
    simp (disch := omega) only [freshFile, r32_w16_of_disjoint, r32_w32_of_disjoint, r32_w32_self]
    exact Nat.mod_eq_of_lt hlen
  have hhigh : r32 (freshFile len) 0x6C = 0 := by
    simp (disch := omega) only [freshFile, r32_w16_of_disjoint, r32_w32_of_disjoint]
    rfl
  rw [inodeSize, hhigh, if_neg (by decide), hlow]

theorem mapFlat_freshFile (len b : ℕ) : mapFlat (freshFile len) b = none := by
  rw [mapFlat, entries_freshFile, List.range_zero, List.findSome?_nil, ite_self]

/-- The blocks of a file are enough for its bytes, or none: then the sum has wrapped around. -/
theorem div_lt_blocksOf {g : Geometry} {q : ℕ} (hbs : 0 < g.bs) (hlen : len < 2 ^ 32)
    (hne : g.blocksOf len ≠ 0)
    (hq : q < len) : q / g.bs < g.blocksOf len := by
  rw [Geometry.blocksOf] at hne ⊢
  by_cases hlt : len + g.bs - 1 < 2 ^ 32
  · have hstep : (q + g.bs) / g.bs = q / g.bs + 1 := Nat.add_div_right q hbs
    have hle : (q + g.bs) / g.bs ≤ (len + g.bs - 1) / g.bs := Nat.div_le_div_right (by omega)
    rw [u32, Nat.mod_eq_of_lt hlt]
    omega
  · refine absurd (Nat.div_eq_of_lt ?_) hne
    rw [u32]
    omega

/-- The image `write_file` starts with leads nowhere. -/
theorem Laid.fresh (s : Fs) (data : Bytes) (len : ℕ) :
    Laid s (freshFile len) data len 0 (s.setIno (freshFile len)) :=
  ⟨⟨rfl, fun _ _ _ => rfl⟩, fun _ _ => rfl, fun _ hb => absurd hb (Nat.not_lt_zero _),
    fun b _ => mapFlat_freshFile len b⟩

/-- **All of the data are there**, whatever the image says about how many blocks it takes. -/
theorem Laid.prepared (hl : Laid s₀ (freshFile len) data len done s) (hg : s.geo.Ok)
    (hf : Flat s.geo s.ino)
    (hlen : len < 2 ^ 32) (hblocks : ∀ q < len, q / s.geo.bs < done) (v : ℕ) :
    Prepared s₀ data len (s.setIno (w32 s.ino 0x1C v)) := by
  obtain ⟨hfile, hmagic⟩ := freshFile_head len
  have hmap : SameMap (w32 s.ino 0x1C v) s.ino := .w32 _ _ (by omega)
  refine ⟨⟨hl.stack, hl.disk⟩, ?_, ?_, ?_, fun q hq => ?_⟩
  · have hmode : r16 s.ino 0 = r16 (freshFile len) 0 := r16_congr fun _ _ => hl.head _ (by omega)
    rw [setIno_ino, hmap.isFile, IsFile, hmode]
    exact hfile
  · rw [setIno_ino, hmap.magic]
    exact hl.magic hmagic
  · have hlow : r32 s.ino 4 = r32 (freshFile len) 4 := r32_congr fun _ _ => hl.head _ (by omega)
    have hhigh : r32 s.ino 0x6C = r32 (freshFile len) 0x6C :=
      r32_congr fun _ _ => hl.head _ (by omega)
    rw [setIno_ino, ← inodeSize_freshFile hlen, inodeSize, inodeSize,
      r32_w32_of_disjoint (by omega),
      r32_w32_of_disjoint (by omega), hlow, hhigh]
  · obtain ⟨p, hp, hbytes⟩ := hl.here _ (hblocks q hq)
    have hplace : q / s.geo.bs * s.geo.bs + q % s.geo.bs = q := Nat.div_add_mod' q s.geo.bs
    change (mapFlat (w32 s.ino 0x1C v) (q / s.geo.bs)).map (fun p => s.disk p (q % s.geo.bs)) = _
    rw [hmap.mapFlat hf, hp, Option.map_some, hbytes _ (Nat.mod_lt _ hg.bs_pos),
      hplace, padded, if_pos hq]

/-- **A new file is made up** with all of the data, or the call gives up. -/
theorem wp_writeFresh_stores (h : Held s T Nothing) (hlen : len < 2 ^ 32) : wp (writeFresh data len)
    (fun r t => Draft s T 0 Nothing r t ∧ Prepared s data len t)
    (fun t => len ≠ 0 ∧ Framed s t ∧ ∃ m : ℕ, Stock s T 0 Nothing m t) s := by
  have hg := h.geo
  have hdraft := h.fresh len
  have hlaid := Laid.fresh s data len
  by_cases hz : len = 0
  · subst hz
    rw [writeFresh, wp_bind, wp_modify, wp_ite]
    refine ⟨fun _ => ⟨hdraft, ?_⟩, fun hn => absurd rfl hn⟩
    obtain ⟨hfile, hmagic⟩ := freshFile_head 0
    exact ⟨⟨rfl, fun _ _ _ => rfl⟩, hfile, hmagic, inodeSize_freshFile hlen,
      fun _ hq => absurd hq (Nat.not_lt_zero _)⟩
  · have hgeo : (s.setIno (freshFile len)).geo = s.geo := rfl
    have htotal : s.geo.blocksOf len < 2 ^ 32 := lt_of_le_of_lt (Nat.div_le_self _ _) (u32_lt _)
    have hframed : wp (writeFresh data len) (fun _ _ => True) (fun t => Framed s t) s := by
      rw [writeFresh, wp_bind, wp_modify, wp_ite]
      refine ⟨fun _ => trivial, fun _ => ?_⟩
      rw [wp_bind]
      refine wp_mono (wp_writeBlocks_framed hdraft hlaid.toFramed) (fun _ t _ => ?_) fun _ => id
      rw [wp_bind, wp_modify]
      exact trivial
    have hprep : wp (writeFresh data len) (fun _ t => Prepared s data len t) (fun _ => True) s := by
      rw [writeFresh, wp_bind, wp_modify, wp_ite]
      refine ⟨fun hn => absurd hn hz, fun _ => ?_⟩
      rw [wp_bind, writeBlocks, wp_bind, wp_get, wp_bind, hgeo]
      refine wp_mono (wp_and (@wp_writeBlocksLoop _ _ _ _ _ data len 0 (s.geo.blocksOf len) _
        0 0 hdraft (by omega))
        (wp_writeBlocksLoop_laid hdraft hlaid (freshFile_head len).2 (Nat.zero_le _) htotal))
        ?_ fun _ _ => trivial
      rintro r t ⟨⟨m, -, ht⟩, hr, hl⟩
      rw [wp_bind, wp_guard]
      refine ⟨fun hne => ?_, fun _ => trivial⟩
      have hpos : s.geo.blocksOf len ≠ 0 := by omega
      rw [← ht.tally.geo] at hpos hl
      rw [wp_pure, wp_bind, wp_modify]
      exact hl.prepared ht.geo ht.flat hlen (fun q hq => div_lt_blocksOf ht.geo.bs_pos hlen hpos hq)
        _
    refine wp_mono (wp_and (wp_writeFresh h) (wp_and hframed hprep))
      (fun _ _ ht => ⟨ht.1, ht.2.2⟩) ?_
    exact fun t ht => ⟨hz, ht.2.1, ht.1⟩

/-! ## What is stored -/

namespace Stores

variable (h : Stores s ino data len)

include h

theorem full : Full s ino := by
  intro q hq
  rw [h.bytes q (h.size ▸ hq)]
  exact Option.some_ne_none _

/-- **The contents of the file** are the data. -/
theorem contents_eq (hg : s.geo.Ok) (hi : s.geo.IsIno ino) (hf : Flat s.geo (s.inodes ino)) :
    s.contents ino = (List.range len).map data := by
  refine List.ext_getElem? fun q => ?_
  rw [getElem?_contents hg hi hf h.file h.full, h.size, List.getElem?_map]
  by_cases hq : q < len
  · rw [if_pos hq, h.bytes q hq, List.getElem?_range hq]
    rfl
  · rw [if_neg hq, List.getElem?_eq_none (by simpa using hq)]
    rfl

/-- **Any range that is read** is that part of the data. -/
theorem readBytes (hg : s.geo.Ok) (hi : s.geo.IsIno ino)
    (hf : Flat s.geo (s.inodes ino)) (n o : ℕ) :
    s.readBytes ino n o = (((List.range len).map data).drop o).take n := by
  rw [readBytes_of_whole hg hi hf h.file h.full, h.contents_eq hg hi hf]

/-- What leaves the file alone leaves the data. -/
theorem kept (hk : Kept s u ino) (hg : s.geo.Ok) (hf : Flat s.geo (s.inodes ino)) :
    Stores u ino data len where
  file := hk.image.sameMap.isFile.mpr h.file
  magic := (hk.image.r16 (by omega)).trans h.magic
  size := hk.image.inodeSize.trans h.size
  bytes q hq := (hk.byteAt hg hf q).trans (h.bytes q hq)

end Stores

/-- **An image that has been prepared is in the table.** -/
theorem Prepared.stores (h : Prepared s₀ data len s) (himg : Same (u.inodes ino) s.ino)
    (hgeo : u.geo = s.geo)
    (hf : Flat s.geo s.ino) (hdisk : ∀ b p, mapFlat s.ino b = some p → u.disk p = s.disk p) :
    Stores u ino data len where
  file := himg.sameMap.isFile.mpr h.file
  magic := (himg.r16 (by omega)).trans h.magic
  size := himg.inodeSize.trans h.size
  bytes q hq := by
    have hbyte := h.bytes q hq
    obtain ⟨p, hp, hc⟩ := Option.map_eq_some_iff.mp hbyte
    rw [byteAt, hgeo, himg.sameMap.mapFlat hf, hp, Option.map_some, hdisk _ p hp, hc]

end Fs

end Aurisys
