import Aurisys.Fs.Owned
import Aurisys.Fs.Reads

/-!
# Drafts

Most of what `write_file`, `write_at` and `mkdir` do comes before the first inode is stored: blocks
are taken from the bitmap and written, and the image in `g_ino` is made up. If they give up now, the
blocks they took are lost, but no inode has changed.

A draft is a state in the middle of that, seen from the state it began with: who owns what in the
table on the disk and in the one with the new image, how many blocks have been taken, and that no
bit has been cleared.

## Main definitions

* `Tally` — how many bits of each bitmap have been set, with the counts as they were
* `Grows` — no bit has been cleared
* `Stock`, `Draft`

## Main results

* `wp_writeBlocks`
* `wp_writeFresh`
-/

namespace Aurisys

open Bytes Fallible

namespace Fs

/-- So many blocks and inodes have been taken, and the counts have not been settled. -/
structure Tally (s s' : Fs) (blocks inodes : ℤ) : Prop where
  geo : s'.geo = s.geo
  desc : s'.disk s.geo.descBlock = s.disk s.geo.descBlock
  sbBlock : s'.disk s.geo.sbBlock = s.disk s.geo.sbBlock
  sb : s'.sb = s.sb
  freeBlocks : s'.freeBlocks = s.freeBlocks
  freeInodes : s'.freeInodes = s.freeInodes
  blocks : ((s'.disk s.geo.bbb).clearCount s.geo.blocks : ℤ) + blocks =
    (s.disk s.geo.bbb).clearCount s.geo.blocks
  inodes : ((s'.disk s.geo.ibb).clearCount s.geo.inodes : ℤ) + inodes =
    (s.disk s.geo.ibb).clearCount s.geo.inodes

/-- What was in use still is. -/
structure Grows (s s' : Fs) : Prop where
  used : ∀ b, s.Used b → s'.Used b
  live : ∀ ino, s.Live ino → s'.Live ino

variable {s s₀ s' s'' : Fs} {T : ℕ → Bytes} {X : ℕ → Prop} {j ino first n b : ℕ} {k l k' l' : ℤ}

theorem Tally.refl (s : Fs) : Tally s s 0 0 :=
  ⟨rfl, rfl, rfl, rfl, rfl, rfl, add_zero _, add_zero _⟩

theorem Tally.trans (h : Tally s s' k l) (h' : Tally s' s'' k' l') :
    Tally s s'' (k + k') (l + l') where
  geo := h'.geo.trans h.geo
  desc := by
    have := h'.desc
    rw [h.geo] at this
    exact this.trans h.desc
  sbBlock := by
    have := h'.sbBlock
    rw [h.geo] at this
    exact this.trans h.sbBlock
  sb := h'.sb.trans h.sb
  freeBlocks := h'.freeBlocks.trans h.freeBlocks
  freeInodes := h'.freeInodes.trans h.freeInodes
  blocks := by
    have h₁ := h'.blocks
    have h₂ := h.blocks
    rw [h.geo] at h₁
    omega
  inodes := by
    have h₁ := h'.inodes
    have h₂ := h.inodes
    rw [h.geo] at h₁
    omega

theorem Grows.refl (s : Fs) : Grows s s := ⟨fun _ => id, fun _ => id⟩

theorem Grows.trans (h : Grows s s') (h' : Grows s' s'') : Grows s s'' :=
  ⟨fun b hb => h'.used b (h.used b hb), fun i hi => h'.live i (h.live i hi)⟩

/-- A state that differs in blocks that are not single blocks of metadata. -/
theorem Tally.of_singles (hgeo : s'.geo = s.geo) (h : ∀ b ∈ s.geo.singles, s'.disk b = s.disk b)
    (hsb : s'.sb = s.sb) (hfb : s'.freeBlocks = s.freeBlocks) (hfi : s'.freeInodes = s.freeInodes) :
    Tally s s' 0 0 where
  geo := hgeo
  desc := h _ Geometry.Ok.desc_mem
  sbBlock := h _ Geometry.Ok.sb_mem
  sb := hsb
  freeBlocks := hfb
  freeInodes := hfi
  blocks := by rw [h _ Geometry.Ok.bbb_mem, add_zero]
  inodes := by rw [h _ Geometry.Ok.ibb_mem, add_zero]

theorem Grows.of_singles (hgeo : s'.geo = s.geo) (h : ∀ b ∈ s.geo.singles, s'.disk b = s.disk b) :
    Grows s s' where
  used b hb := by
    rw [Used, hgeo, h _ Geometry.Ok.bbb_mem]
    exact hb
  live i hi := by
    rw [Live, hgeo, h _ Geometry.Ok.ibb_mem]
    exact hi

theorem Tally.of_core (h : Tally s₀ s k l) (hcore : s'.core = s.core) : Tally s₀ s' k l := by
  have := h.trans (.of_singles (core_geo hcore) (fun _ _ => by rw [core_disk hcore])
    (Fs.of_core Fs.sb (fun _ => rfl) hcore) (Fs.of_core Fs.freeBlocks (fun _ => rfl) hcore)
    (Fs.of_core Fs.freeInodes (fun _ => rfl) hcore))
  rwa [add_zero, add_zero] at this

theorem Grows.of_core (h : Grows s₀ s) (hcore : s'.core = s.core) : Grows s₀ s' :=
  h.trans (.of_singles (core_geo hcore) fun _ _ => by rw [core_disk hcore])

theorem Tally.taken (hg : s.geo.Ok) (hle : first + n ≤ s.geo.blocks)
    (hclear : ∀ b, first ≤ b → b < first + n → ¬s.Used b) : Tally s (s.taken first n) n 0 := by
  have hdisk := taken_disk (s := s) (hle.trans hg.blocks)
  have hne : ∀ b ∈ s.geo.singles, b ≠ s.geo.bbb → (s.taken first n).disk b = s.disk b := by
    intro b _ hb
    rw [hdisk, Function.update_of_ne hb]
  refine ⟨rfl, hne _ Geometry.Ok.desc_mem hg.desc_ne_bbb,
    hne _ Geometry.Ok.sb_mem (hg.sb_ne (by simp)),
    rfl, rfl, rfl, ?_, ?_⟩
  · rw [hdisk, Function.update_self]
    have := clearCount_setBits (m := s.disk s.geo.bbb) hle fun b h₁ h₂ =>
      Bool.eq_false_iff.mpr (hclear b h₁ h₂)
    omega
  · rw [hne _ Geometry.Ok.ibb_mem hg.bbb_ne_ibb.symm, add_zero]

theorem Grows.taken (hg : s.geo.Ok) (hle : first + n ≤ s.geo.blocks) :
    Grows s (s.taken first n) := by
  have hdisk := taken_disk (s := s) (hle.trans hg.blocks)
  constructor
  · intro b hb
    rw [Used, hdisk]
    change (Function.update s.disk s.geo.bbb _ s.geo.bbb).bit b = true
    rw [Function.update_self, bit_setBits, hb, Bool.or_true]
  · intro i hi
    rw [Live, hdisk]
    change (Function.update s.disk s.geo.bbb _ s.geo.ibb).bit (i - 1) = true
    rw [Function.update_of_ne hg.bbb_ne_ibb.symm]
    exact hi

/-- Only the block bitmap changes when blocks are taken. -/
theorem inodes_taken (hg : s.geo.Ok) (hle : first + n ≤ s.geo.blocks) :
    (s.taken first n).inodes = s.inodes := by
  refine inodes_congr rfl fun i hi => ?_
  rw [taken_disk (hle.trans hg.blocks),
    Function.update_of_ne (hg.slotBlock_ne hi Geometry.Ok.bbb_mem)]

/-- A block that holds no metadata is in no single block and in no slot. -/
theorem ne_of_not_meta (hb : ¬s.geo.IsMeta b) {m : ℕ} (hm : m ∈ s.geo.singles) : m ≠ b :=
  fun he => hb (he ▸ Geometry.Ok.single_meta hm)

theorem inodes_setDisk (hg : s.geo.Ok) (hb : ¬s.geo.IsMeta b) (d : Bytes) :
    (s.setDisk b d).inodes = s.inodes :=
  inodes_of_ne d fun _ hi he => hb (he ▸ hg.slotBlock_meta hi)

theorem Tally.setDisk (hb : ¬s.geo.IsMeta b) (d : Bytes) : Tally s (s.setDisk b d) 0 0 :=
  .of_singles rfl (fun _ hm => Function.update_of_ne (ne_of_not_meta hb hm) _ _) rfl rfl rfl

theorem Grows.setDisk (hb : ¬s.geo.IsMeta b) (d : Bytes) : Grows s (s.setDisk b d) :=
  .of_singles rfl fun _ hm => Function.update_of_ne (ne_of_not_meta hb hm) _ _

/-! ## Drafts -/

/-- What was in use and held data has not been written, but for the blocks of number `j`. -/
def Untouched (s₀ : Fs) (T : ℕ → Bytes) (j : ℕ) (s : Fs) : Prop :=
  ∀ b, s₀.Used b → ¬s₀.geo.IsMeta b → (∀ i, ¬Covers (T j) i b) → s.disk b = s₀.disk b

/-- Blocks have been taken since `s₀`, of which those in `X` can still be used. The inode table is
as it was. -/
structure Stock (s₀ : Fs) (T : ℕ → Bytes) (j : ℕ) (X : ℕ → Prop) (k : ℤ) (s : Fs) : Prop where
  table : Held s T X
  tally : Tally s₀ s k 0
  grows : Grows s₀ s
  inodes : s.inodes = s₀.inodes
  spare : ∀ b, X b → ¬s₀.Used b
  data : Untouched s₀ T j s

/-- An image for number `j` is being made up in `g_ino`. It has what number `j` had, and blocks that
were not in use; the blocks in `X` will go into it. -/
structure Draft (s₀ : Fs) (T : ℕ → Bytes) (j : ℕ) (X : ℕ → Prop) (k : ℤ) (s : Fs) : Prop
    extends Stock s₀ T j X k s where
  image : Held s (Function.update T j s.ino) X
  owned : ∀ i b, Covers s.ino i b → Covers (T j) i b ∨ ¬s₀.Used b

theorem Held.stock (h : Held s T Nothing) (j : ℕ) : Stock s T j Nothing 0 s :=
  ⟨h, .refl s, .refl s, rfl, fun _ => False.elim, fun _ _ _ _ => rfl⟩

theorem Held.of_core (h : Held s T X) (hcore : s'.core = s.core) : Held s' T X :=
  h.frame (core_geo hcore) (core_hint hcore) (by rw [core_disk hcore])

namespace Stock

variable (h : Stock s₀ T j X k s)

include h

theorem geo : s.geo.Ok := h.table.geo

/-- What is spare is lost. -/
theorem forget : Stock s₀ T j Nothing k s :=
  ⟨h.table.forget, h.tally, h.grows, h.inodes, fun _ => False.elim, h.data⟩

/-- The buffers do not matter. -/
theorem of_core (hcore : s'.core = s.core) : Stock s₀ T j X k s' := by
  refine ⟨h.table.of_core hcore, h.tally.of_core hcore, h.grows.of_core hcore,
    (core_inodes hcore).trans h.inodes, h.spare, ?_⟩
  rw [Untouched, core_disk hcore]
  exact h.data

/-- A block is written that was not in use, or that number `j` had. -/
theorem setDisk (hm : ¬s.geo.IsMeta b) (hb : (∃ i, Covers (T j) i b) ∨ ¬s₀.Used b) (d : Bytes) :
    Stock s₀ T j X k (s.setDisk b d) := by
  refine ⟨h.table.setDisk d hm, ?_, h.grows.trans (.setDisk hm d),
    (inodes_setDisk h.geo hm d).trans h.inodes, h.spare, ?_⟩
  · have := h.tally.trans (.setDisk hm d)
    rwa [add_zero] at this
  · intro c hu hc hj
    have hne : c ≠ b := by
      rintro rfl
      exact hb.elim (fun ⟨i, hi⟩ => hj i hi) fun hn => hn hu
    exact (Function.update_of_ne hne _ _).trans (h.data c hu hc hj)

omit h in
/-- **A run is taken.** -/
theorem taken (h : Stock s₀ T j Nothing k s) (hrun : s.freeRun n = some first) :
    Stock s₀ T j (Run first n) (k + n) (s.taken first n) := by
  obtain ⟨_, hle, hclear⟩ := h.table.freeRun hrun
  have hg := h.geo
  have hX : (fun b => Run first n b ∨ Nothing b) = Run first n := by
    funext b
    exact propext (or_iff_left id)
  have htally := h.tally.trans (.taken hg hle hclear)
  rw [add_zero] at htally
  refine ⟨?_, htally, h.grows.trans (.taken hg hle), (inodes_taken hg hle).trans h.inodes, ?_, ?_⟩
  · rw [← hX]
    exact h.table.taken hrun
  · exact fun b hb hu => hclear b hb.1 hb.2 (h.grows.used b hu)
  · intro b hu hm hj
    rw [taken_disk (hle.trans hg.blocks), Function.update_of_ne, h.data b hu hm hj]
    rw [← h.tally.geo] at hm
    exact (ne_of_not_meta hm Geometry.Ok.bbb_mem).symm

end Stock

namespace Draft

variable (h : Draft s₀ T j X k s)

include h

theorem flat : Flat s.geo s.ino := by
  have := h.image.flat j
  rwa [Function.update_self] at this

/-- The buffers do not matter, apart from the image. -/
theorem of_core (hcore : s'.core = s.core) (hino : s'.ino = s.ino) : Draft s₀ T j X k s' := by
  refine ⟨h.toStock.of_core hcore, ?_, hino.symm ▸ h.owned⟩
  rw [hino]
  exact h.image.of_core hcore

theorem setDisk (hm : ¬s.geo.IsMeta b) (hb : (∃ i, Covers (T j) i b) ∨ ¬s₀.Used b) (d : Bytes) :
    Draft s₀ T j X k (s.setDisk b d) :=
  ⟨h.toStock.setDisk hm hb d, h.image.setDisk d hm, h.owned⟩

theorem write (hb : X b) (d : Bytes) : Draft s₀ T j X k (s.setDisk b d) :=
  h.setDisk (h.table.spare_not_meta hb) (.inr (h.spare b hb)) d

/-- A block of the image holds no metadata, and was not in use or number `j` had it. -/
theorem mapped {lblock phys : ℕ} (hm : mapFlat s.ino lblock = some phys) :
    ¬s.geo.IsMeta phys ∧ ((∃ i, Covers (T j) i phys) ∨ ¬s₀.Used phys) := by
  obtain ⟨i, hi⟩ := covers_of_mapFlat h.flat h.table.blocks_lt hm
  refine ⟨?_, (h.owned i phys hi).imp_left fun hc => ⟨i, hc⟩⟩
  refine h.image.not_meta (k := j) (i := i) ?_
  rw [Function.update_self]
  exact hi

/-- The image changes outside its map. -/
theorem setIno {img : Bytes} (hmap : SameMap img s.ino) : Draft s₀ T j X k (s.setIno img) := by
  refine ⟨h.toStock.of_core rfl, ?_, fun i b hc => h.owned i b ((hmap.covers h.flat).mp hc)⟩
  have hself : Function.update T j s.ino j = s.ino := Function.update_self _ _ _
  have hmap' : SameMap img (Function.update T j s.ino j) := by rwa [hself]
  have := h.image.updateMap hmap'
  rw [Function.update_idem] at this
  exact this.of_core rfl

omit h in
theorem taken (h : Draft s₀ T j Nothing k s) (hrun : s.freeRun n = some first) :
    Draft s₀ T j (Run first n) (k + n) (s.taken first n) := by
  obtain ⟨_, hle, _⟩ := h.table.freeRun hrun
  have hX : (fun b => Run first n b ∨ Nothing b) = Run first n := by
    funext b
    exact propext (or_iff_left id)
  refine ⟨h.toStock.taken hrun, ?_, h.owned⟩
  rw [← hX]
  exact h.image.taken hrun

omit h in
/-- **The run goes into the image.** -/
theorem addExtent (h : Draft s₀ T j (Run first n) k s) (l : ℕ) (he : r16 s.ino 0x2A < 4)
    (hn : 0 < n ∧ n ≤ 32767) (hle : first + n ≤ s.geo.blocks) :
    Draft s₀ T j Nothing k (s.setIno (addExtent s.ino l n first)) := by
  have hlt := h.table.blocks_lt
  refine ⟨h.forget.of_core rfl, ?_, fun i b hc => ?_⟩
  · have hself : Function.update T j s.ino j = s.ino := Function.update_self _ _ _
    have hadd := h.image.addExtent (j := j) (l := l) rfl (by rwa [hself]) hn hle
    rw [hself, Function.update_idem] at hadd
    exact hadd.of_core rfl
  · rcases (covers_addExtent h.flat he hn.2 (by omega)).mp hc with hc | ⟨_, hb⟩
    · exact h.owned i b hc
    · exact .inr (h.spare b hb)

end Draft

/-! ## Writing blocks -/

theorem wp_fillBlocks {data : Bytes} {len d : ℕ} (h : Draft s₀ T j (Run first n) k s)
    (hle : first + n ≤ s.geo.blocks) : wp (fillBlocks data len first d n)
      (fun _ s' => Draft s₀ T j (Run first n) k s' ∧ s'.ino = s.ino ∧ s'.geo = s.geo)
      (fun s' => Draft s₀ T j (Run first n) k s' ∧ s'.ino = s.ino ∧ s'.geo = s.geo) s := by
  refine Keeps.forM (fun i hi => ?_) s ⟨h, rfl, rfl⟩
  have hi := List.mem_range.mp hi
  have hlt := h.table.blocks_lt
  have hblk : u32 (first + i) = first + i := Nat.mod_eq_of_lt (by omega)
  refine Keeps.bind Keeps.get fun _ t ⟨ht, hino, hgeo⟩ => ?_
  rw [hblk, wp_bind, wp_modify, wp_writeB1]
  generalize memcpy _ 0 data _ _ = b
  have ht' : Draft s₀ T j (Run first n) k (t.setB1 b) := ht.of_core rfl rfl
  exact ⟨fun _ => ⟨ht'.write ⟨by omega, by omega⟩ _, hino, hgeo⟩, fun _ => ⟨ht', hino, hgeo⟩⟩

/-- The rounds of `write_blocks`: each extent there is room for is one round. -/
theorem wp_writeBlocksLoop {data : Bytes} {len lstart total fuel done used : ℕ}
    (h : Draft s₀ T j Nothing k s) (hfuel : 5 ≤ fuel + r16 s.ino 0x2A) :
    wp (writeBlocksLoop data len lstart total fuel done used)
      (fun r s' => ∃ m : ℕ, r = used + m ∧ Draft s₀ T j Nothing (k + m) s')
      (fun s' => ∃ m : ℕ, Stock s₀ T j Nothing (k + m) s') s := by
  induction fuel generalizing s done used k with
  | zero =>
    have := h.flat.few
    omega
  | succ fuel ih =>
    have hstock : ∃ m : ℕ, Stock s₀ T j Nothing (k + m) s := ⟨0, by simpa using h.toStock⟩
    rw [writeBlocksLoop, wp_ite]
    refine ⟨fun _ => ⟨0, rfl, by simpa using h⟩, fun hlt => ?_⟩
    rw [wp_bind, wp_get, wp_bind, wp_guard]
    refine ⟨fun he => ?_, fun _ => hstock⟩
    generalize hchunk : min (total - done) 32767 = chunk
    rw [wp_bind]
    refine wp_allocBlocks h.table.geo (fun first hrun => ?_) fun _ => ?_
    · obtain ⟨hn, hle, _⟩ := h.table.freeRun hrun
      have ht := h.taken hrun
      generalize hs₁ : s.taken first chunk = s₁ at ht
      have hino₁ : s₁.ino = s.ino := by rw [← hs₁]; rfl
      have hgeo₁ : s₁.geo = s.geo := by rw [← hs₁]; rfl
      rw [wp_bind, wp_get, wp_bind]
      refine wp_mono (wp_fillBlocks ht (by rw [hgeo₁]; exact hle)) ?_ fun s' h' =>
        ⟨chunk, h'.1.forget⟩
      rintro ⟨⟩ s₂ ⟨h₂, hino₂, hgeo₂⟩
      rw [wp_bind, wp_modify]
      have he₂ : r16 s₂.ino 0x2A < 4 := by rw [hino₂, hino₁]; exact he
      have h₃ := h₂.addExtent (lstart + done) he₂ ⟨hn, by omega⟩ (by rw [hgeo₂, hgeo₁]; exact hle)
      refine wp_mono (ih h₃ ?_) ?_ ?_
      · have := entries_addExtent s₂.ino (lstart + done) chunk first he₂
        rw [setIno_ino, this, hino₂, hino₁]
        omega
      · rintro r s' ⟨m, hr, hs'⟩
        refine ⟨chunk + m, by omega, ?_⟩
        rwa [Nat.cast_add, ← add_assoc]
      · rintro s' ⟨m, hs'⟩
        refine ⟨chunk + m, ?_⟩
        rwa [Nat.cast_add, ← add_assoc]
    · exact ⟨hstock, 0,
        by simpa using (h.toStock.of_core rfl : Stock s₀ T j Nothing k (s.read1 s.geo.bbb))⟩

/-- **`write_blocks`** takes as many blocks as it says, or gives up. -/
theorem wp_writeBlocks {data : Bytes} {len lstart : ℕ} (h : Draft s₀ T j Nothing k s) :
    wp (writeBlocks data len lstart) (fun r s' => Draft s₀ T j Nothing (k + r) s')
      (fun s' => ∃ m : ℕ, Stock s₀ T j Nothing (k + m) s') s := by
  rw [writeBlocks, wp_bind, wp_get, wp_bind]
  refine wp_mono (wp_writeBlocksLoop h (by omega)) ?_ fun _ => id
  rintro r s' ⟨m, hr, hs'⟩
  rw [Nat.zero_add] at hr
  rw [wp_bind, wp_guard, hr]
  exact ⟨fun _ => hs', fun _ => ⟨m, hs'.toStock⟩⟩

/-- The image of a file without blocks. -/
theorem entries_freshFile (len : ℕ) : r16 (freshFile len) 0x2A = 0 := by
  simp (disch := omega) only [freshFile, r16_w16_of_disjoint, r16_w16_self]
  rfl

theorem flat_freshFile (g : Geometry) (len : ℕ) : Flat g (freshFile len) where
  depth := by
    rw [freshFile, r16_w16_self]
    rfl
  few := by
    rw [entries_freshFile]
    exact Nat.zero_le 4
  vacant i hi _ j hj := by
    simp (disch := omega) only [freshFile, w16_of_lt_or_ge, w32_of_lt_or_ge]
  flagged _ := by
    have h : r32 (freshFile len) 0x20 = kExtentsFl := by
      simp (disch := omega) only [freshFile, r32_w16_of_disjoint, r32_w32_of_disjoint, r32_w32_self]
      rfl
    rw [h]
    decide
  bounds i hi := by
    rw [entries_freshFile] at hi
    exact absurd hi (Nat.not_lt_zero i)

/-- A draft for a new file. -/
theorem Held.fresh (h : Held s T Nothing) (len : ℕ) :
    Draft s T 0 Nothing 0 (s.setIno (freshFile len)) := by
  refine ⟨(h.stock 0).of_core rfl, ?_,
    fun i b hc => absurd hc (not_covers_of_entries (entries_freshFile len) i b)⟩
  have := Held.update (j := 0) h (flat_freshFile s.geo len) fun i b hc =>
    absurd hc (not_covers_of_entries (entries_freshFile len) i b)
  exact this.of_core rfl

/-- **The contents of a new file**, with the number of blocks they take. -/
theorem wp_writeFresh {data : Bytes} {len : ℕ} (h : Held s T Nothing) : wp (writeFresh data len)
    (fun r s' => Draft s T 0 Nothing r s') (fun s' => ∃ m : ℕ, Stock s T 0 Nothing m s') s := by
  rw [writeFresh, wp_bind, wp_modify, wp_ite]
  have hd := h.fresh len
  refine ⟨fun _ => hd, fun _ => ?_⟩
  rw [wp_bind]
  refine wp_mono (wp_writeBlocks hd) (fun r s' hs' => ?_) fun s' hs' => ?_
  · rw [wp_bind, wp_modify]
    rw [zero_add] at hs'
    exact hs'.setIno (.w32 _ _ (by omega))
  · simpa only [zero_add] using hs'

end Fs

end Aurisys
