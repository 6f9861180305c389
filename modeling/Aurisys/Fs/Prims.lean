import Aurisys.Fs.Layout
import Mathlib.Data.List.Find

/-!
# What the primitives do

One rule for each function that transfers a block: the state it leaves, and when it gives up. The
states are written out, buffers and all; most of what comes later does not look at the buffers, and
only says that they do not matter.

On a volume with the right layout only three things are refused: a number that is no inode, a block
that is not on the volume, and what there is no room for.

## Main definitions

* `loaded`, `stored`, `taken`, `given`, `inodeTaken`, `committed` — the states afterwards
* `freeRun`, `nextInode` — what the allocators are going to hand out

## Main results

* `wp_loadInode`, `wp_storeInode`, `wp_allocBlocks`, `wp_freeBlocksAt`, `wp_allocInode`,
  `wp_commitCounts`
* `freeRun_spec` — the run is clear and on the volume
-/

namespace Aurisys

open Bytes Fallible

namespace Fs

variable {α : Type} {s : Fs} {E : Fs → Prop} {blk ino n : ℕ}

/-! ## Blocks -/

/-- A block has been read into `g_b1`. -/
def read1 (s : Fs) (blk : ℕ) : Fs := s.setB1 (memcpy s.b1 0 (s.disk blk) 0 s.geo.bs)

/-- A block has been read into `g_b2`. -/
def read2 (s : Fs) (blk : ℕ) : Fs := s.setB2 (memcpy s.b2 0 (s.disk blk) 0 s.geo.bs)

theorem wp_readB1 {Q : Unit → Fs → Prop} : wp (readB1 blk) Q E s ↔
    (blk < s.geo.blocks → Q ⟨⟩ (s.read1 blk)) ∧ (¬blk < s.geo.blocks → E s) := by
  rw [readB1, wp_bind, wp_get, wp_bind, wp_guard]
  exact Iff.rfl

theorem wp_readB2 {Q : Unit → Fs → Prop} : wp (readB2 blk) Q E s ↔
    (blk < s.geo.blocks → Q ⟨⟩ (s.read2 blk)) ∧ (¬blk < s.geo.blocks → E s) := by
  rw [readB2, wp_bind, wp_get, wp_bind, wp_guard]
  exact Iff.rfl

theorem wp_writeB1 {Q : Unit → Fs → Prop} : wp (writeB1 blk) Q E s ↔
    (blk < s.geo.blocks → Q ⟨⟩ (s.putBlock blk s.b1)) ∧ (¬blk < s.geo.blocks → E s) := by
  rw [writeB1, wp_bind, wp_get, wp_bind, wp_guard]
  exact Iff.rfl

theorem wp_writeB2 {Q : Unit → Fs → Prop} : wp (writeB2 blk) Q E s ↔
    (blk < s.geo.blocks → Q ⟨⟩ (s.putBlock blk s.b2)) ∧ (¬blk < s.geo.blocks → E s) := by
  rw [writeB2, wp_bind, wp_get, wp_bind, wp_guard]
  exact Iff.rfl

theorem wp_setWriteB2 {Q : Unit → Fs → Prop} {f : Fs → Bytes} : wp (setWriteB2 f blk) Q E s ↔
    (blk < s.geo.blocks → Q ⟨⟩ ((s.setB2 (f s)).putBlock blk (f s))) ∧
      (¬blk < s.geo.blocks → E (s.setB2 (f s))) := by
  rw [setWriteB2, wp_bind, wp_modify, wp_writeB2]
  exact Iff.rfl

theorem putBlock_eq (s : Fs) (blk : ℕ) (buf : Bytes) :
    s.putBlock blk buf = s.setDisk blk (memcpy (s.disk blk) 0 buf 0 s.geo.bs) := rfl

/-- What has been read can be changed and written back. Where the change does not go past the end of
the block, the block is changed just so. -/
theorem memcpy_back {b d : Bytes} {k : ℕ} (F : Bytes → Bytes)
    (hcongr : ∀ m m' a, m a = m' a → F m a = F m' a) (hge : ∀ m a, k ≤ a → F m a = m a) :
    memcpy d 0 (F (memcpy b 0 d 0 k)) 0 k = F d := by
  funext a
  by_cases ha : a < k
  · have hin : memcpy b 0 d 0 k a = d a := by
      have h := memcpy_of_lt (m := b) (p := 0) (s := d) (q := 0) ha
      rwa [Nat.zero_add] at h
    have hout : memcpy d 0 (F (memcpy b 0 d 0 k)) 0 k a = F (memcpy b 0 d 0 k) a := by
      have h := memcpy_of_lt (m := d) (p := 0) (s := F (memcpy b 0 d 0 k)) (q := 0) ha
      rwa [Nat.zero_add] at h
    rw [hout, hcongr _ _ a hin]
  · rw [memcpy_of_lt_or_ge (by omega), hge d a (by omega)]

/-! ## Inodes -/

/-- An inode has been loaded. -/
def loaded (s : Fs) (ino : ℕ) : Fs :=
  let b := memcpy s.b1 0 (s.disk (s.geo.slotBlock ino)) 0 s.geo.bs
  (s.setB1 b).setIno (memcpy s.ino 0 b (s.geo.slotOff ino) s.geo.inodeSize)

/-- The inode image has been stored. -/
def stored (s : Fs) (ino : ℕ) : Fs :=
  let b := memcpy (memcpy s.b1 0 (s.disk (s.geo.slotBlock ino)) 0 s.geo.bs) (s.geo.slotOff ino)
    s.ino 0 s.geo.inodeSize
  (s.setB1 b).putBlock (s.geo.slotBlock ino) b

theorem wp_loadInode (hg : s.geo.Ok) {Q : Unit → Fs → Prop} : wp (loadInode ino) Q E s ↔
    (s.geo.IsIno ino → Q ⟨⟩ (s.loaded ino)) ∧ (¬s.geo.IsIno ino → E s) := by
  have hiff : (ino ≠ 0 ∧ ino ≤ s.geo.inodes) ↔ s.geo.IsIno ino := by
    rw [Geometry.IsIno, Nat.pos_iff_ne_zero]
  rw [loadInode, wp_bind, wp_get, wp_bind, wp_guard, hiff]
  refine and_congr_left fun _ => forall_congr' fun hi => ?_
  rw [wp_bind, wp_readB1]
  exact ⟨fun h => h.1 (hg.slotBlock_lt hi), fun h => ⟨fun _ => h,
    fun hn => absurd (hg.slotBlock_lt hi) hn⟩⟩

theorem wp_storeInode (hg : s.geo.Ok) (hi : s.geo.IsIno ino) {Q : Unit → Fs → Prop} :
    wp (storeInode ino) Q E s ↔ Q ⟨⟩ (s.stored ino) := by
  have hlt := hg.slotBlock_lt hi
  rw [storeInode, wp_bind, wp_get, wp_bind, wp_readB1]
  constructor
  · intro h
    have h := h.1 hlt
    rw [wp_bind, wp_modify, wp_writeB1] at h
    exact h.1 hlt
  · intro h
    refine ⟨fun _ => ?_, fun hn => absurd hlt hn⟩
    rw [wp_bind, wp_modify, wp_writeB1]
    exact ⟨fun _ => h, fun hn => absurd hlt hn⟩

/-- **What is loaded** is what the table has. -/
theorem loaded_ino (hg : s.geo.Ok) (hi : s.geo.IsIno ino) :
    Same (s.loaded ino).ino (s.inodes ino) := by
  intro j hj
  have hoff := hg.slotOff_le ino
  have hj := lt_of_lt_of_le hj hg.inodeSize_ge
  rw [inodes_of_isIno hi, loaded]
  simp only [setIno_ino, slot]
  have h := memcpy_of_lt (m := s.ino) (p := 0)
    (s := memcpy s.b1 0 (s.disk (s.geo.slotBlock ino)) 0 s.geo.bs) (q := s.geo.slotOff ino) hj
  rw [Nat.zero_add] at h
  have hlt : s.geo.slotOff ino + j < s.geo.bs := by omega
  have h' := memcpy_of_lt (m := s.b1) (p := 0) (s := s.disk (s.geo.slotBlock ino)) (q := 0) hlt
  rw [Nat.zero_add] at h'
  rw [h, h']

theorem stored_eq (s : Fs) (ino : ℕ) :
    ∃ b d, s.stored ino = (s.setDisk (s.geo.slotBlock ino) d).setB1 b ∧
    d = memcpy (s.disk (s.geo.slotBlock ino)) 0 b 0 s.geo.bs ∧
    b = memcpy (memcpy s.b1 0 (s.disk (s.geo.slotBlock ino)) 0 s.geo.bs) (s.geo.slotOff ino)
      s.ino 0 s.geo.inodeSize := ⟨_, _, rfl, rfl, rfl⟩

/-- **What is stored** is what the table has afterwards. -/
theorem inodes_stored (hg : s.geo.Ok) (hi : s.geo.IsIno ino) (k : ℕ) :
    Same ((s.stored ino).inodes k) (Function.update s.inodes ino s.ino k) := by
  obtain ⟨b, d, heq, hd, hb⟩ := stored_eq s ino
  have hoff := hg.slotOff_le ino
  have hbyte : ∀ a, d a = memcpy (s.disk (s.geo.slotBlock ino)) (s.geo.slotOff ino) s.ino 0
      s.geo.inodeSize a := by
    intro a
    rw [hd, hb, memcpy_back (fun m => memcpy m (s.geo.slotOff ino) s.ino 0 s.geo.inodeSize)]
    · intro m m' a h
      simp only [memcpy, h]
    · exact fun m a ha => memcpy_of_lt_or_ge (by omega)
  rw [heq]
  refine inodes_store hg hi (fun j hj => ?_) (fun a ha => ?_) k
  · rw [hbyte, memcpy_of_lt hj, Nat.zero_add]
  · rw [hbyte, memcpy_of_lt_or_ge ha]

/-! ## Runs of blocks -/

/-- The run that `alloc_blocks` is going to take. -/
def freeRun (s : Fs) (n : ℕ) : Option ℕ :=
  if n ≠ 0 ∧ n ≤ s.geo.blocks then
    findRun (s.disk s.geo.bbb).bit s.geo.blocks s.hint n s.geo.blocks 0 0 0
  else none

/-- A run of blocks has been taken. -/
def taken (s : Fs) (first n : ℕ) : Fs :=
  let b := (memcpy s.b1 0 (s.disk s.geo.bbb) 0 s.geo.bs).setBits first n
  { (s.setB1 b).putBlock s.geo.bbb b with
    hint := u32 (first + n) % s.geo.blocks }

/-- A run of blocks has been given back. -/
def given (s : Fs) (first n : ℕ) : Fs :=
  let b := (memcpy s.b1 0 (s.disk s.geo.bbb) 0 s.geo.bs).clearBits first n
  (s.setB1 b).putBlock s.geo.bbb b

/-- The search looks at bits of the volume only. -/
theorem findRun_congr {used used' : ℕ → Bool} {blocks hint : ℕ} (hpos : 0 < blocks)
    (h : ∀ b < blocks, used b = used' b) (k i run start : ℕ) :
    findRun used blocks hint n k i run start = findRun used' blocks hint n k i run start := by
  induction k generalizing i run start with
  | zero => rfl
  | succ k ih =>
    rw [findRun, findRun, h _ (Nat.mod_lt _ hpos)]
    simp only [ih]

/-- A run that has been started ends where the search is now, or at the end of the volume. -/
theorem findRun_spec {used : ℕ → Bool} {blocks hint : ℕ} (hpos : 0 < blocks) (h0 : used 0 = true)
    {k i run start first : ℕ} (hi : hint + i + k ≤ 2 ^ 32)
    (hrun : run = 0 ∨ start + run ≤ blocks ∧ (hint + i) % blocks = (start + run) % blocks ∧
      ∀ b, start ≤ b → b < start + run → used b = false)
    (hfirst : findRun used blocks hint n k i run start = some first) :
    first + n ≤ blocks ∧ ∀ b, first ≤ b → b < first + n → used b = false := by
  induction k generalizing i run start with
  | zero => exact absurd hfirst (by simp [findRun])
  | succ k ih =>
    have hu : u32 (hint + i) = hint + i := Nat.mod_eq_of_lt (by omega)
    have hlt : (hint + i) % blocks < blocks := Nat.mod_lt _ hpos
    have hnext : (hint + (i + 1)) % blocks = ((hint + i) % blocks + 1) % blocks := by
      rw [← Nat.add_assoc, Nat.mod_add_mod]
    rw [findRun, hu] at hfirst
    by_cases hb : used ((hint + i) % blocks) = true
    · rw [if_pos hb] at hfirst
      exact ih (by omega) (.inl rfl) hfirst
    · rw [if_neg hb] at hfirst
      rw [Bool.not_eq_true] at hb
      generalize hst : (if run = 0 then (hint + i) % blocks else start) = start' at hfirst
      -- the bit that is looked at is the one behind the run
      have hext : start' + run = (hint + i) % blocks ∧ start' + run + 1 ≤ blocks ∧
          ∀ b, start' ≤ b → b < start' + (run + 1) → used b = false := by
        by_cases hz : run = 0
        · rw [if_pos hz] at hst
          refine ⟨by omega, by omega, fun b h₁ h₂ => ?_⟩
          have he : b = (hint + i) % blocks := by omega
          rw [he, hb]
        · rw [if_neg hz] at hst
          obtain ⟨hle, hmod, hall⟩ := hrun.resolve_left hz
          have hne : start + run ≠ blocks := by
            intro he
            rw [he, Nat.mod_self] at hmod
            rw [hmod, h0] at hb
            exact Bool.noConfusion hb
          rw [Nat.mod_eq_of_lt (show start + run < blocks by omega)] at hmod
          refine ⟨by omega, by omega, fun b h₁ h₂ => ?_⟩
          by_cases he : b = (hint + i) % blocks
          · rw [he, hb]
          · exact hall b (by omega) (by omega)
      obtain ⟨hpos', hle, hall⟩ := hext
      dsimp only at hfirst
      split at hfirst
      · next hdone =>
        have he := Option.some.inj hfirst
        rw [← he, ← hdone]
        exact ⟨by omega, hall⟩
      · refine ih (by omega) (.inr ⟨by omega, ?_, hall⟩) hfirst
        rw [hnext, ← hpos', Nat.add_assoc]

theorem bit_memcpy {b d : Bytes} {k i : ℕ} (h : i < 8 * k) :
    (memcpy b 0 d 0 k).bit i = d.bit i := by
  refine bit_congr ?_
  have h := memcpy_of_lt (m := b) (p := 0) (s := d) (q := 0) (show i / 8 < k by omega)
  rwa [Nat.zero_add] at h

/-- **The run is clear** and on the volume. -/
theorem freeRun_spec (hg : s.geo.Ok) (h0 : s.Used 0) (hhint : s.hint + s.geo.blocks ≤ 2 ^ 32)
    {first : ℕ} (h : s.freeRun n = some first) :
    0 < n ∧ first + n ≤ s.geo.blocks ∧ ∀ b, first ≤ b → b < first + n → ¬s.Used b := by
  rw [freeRun] at h
  split at h
  · next hn =>
    have hpos : 0 < s.geo.blocks := hg.meta_lt (.inl rfl)
    have hrun := findRun_spec hpos h0 (by omega) (.inl rfl) h
    refine ⟨Nat.pos_of_ne_zero hn.1, hrun.1, fun b h₁ h₂ hu => ?_⟩
    rw [Used, hrun.2 b h₁ h₂] at hu
    exact Bool.noConfusion hu
  · simp at h

theorem wp_allocBlocks_of (hlt : s.geo.bbb < s.geo.blocks) (hle : s.geo.blocks ≤ 8 * s.geo.bs)
    {Q : ℕ → Fs → Prop} (hQ : ∀ first, s.freeRun n = some first → Q first (s.taken first n))
    (hE : s.freeRun n = none → E s ∧ E (s.read1 s.geo.bbb)) : wp (allocBlocks n) Q E s := by
  rw [allocBlocks, wp_bind, wp_get, wp_bind, wp_guard]
  constructor
  · intro hn
    have hrun : s.freeRun n = findRun (s.read1 s.geo.bbb).b1.bit s.geo.blocks s.hint n s.geo.blocks
        0 0 0 := by
      rw [freeRun, if_pos hn]
      refine findRun_congr (by omega) (fun b hb => ?_) _ _ _ _
      exact (bit_memcpy (by omega)).symm
    rw [wp_bind, wp_readB1]
    refine ⟨fun _ => ?_, fun h => absurd hlt h⟩
    rw [wp_bind, wp_get, wp_bind, wp_ofOption]
    constructor
    · intro first hfirst
      rw [wp_bind, wp_modify, wp_bind, wp_writeB1]
      exact ⟨fun _ => hQ first (hrun.trans hfirst), fun h => absurd hlt h⟩
    · exact fun hnone => (hE (hrun.trans hnone)).2
  · intro hn
    exact (hE (by rw [freeRun, if_neg hn])).1

theorem wp_allocBlocks (hg : s.geo.Ok) {Q : ℕ → Fs → Prop}
    (hQ : ∀ first, s.freeRun n = some first → Q first (s.taken first n))
    (hE : s.freeRun n = none → E s ∧ E (s.read1 s.geo.bbb)) : wp (allocBlocks n) Q E s :=
  wp_allocBlocks_of (hg.single_lt _ Geometry.Ok.bbb_mem) hg.blocks hQ hE

theorem wp_freeBlocksAt (hg : s.geo.Ok) {Q : Unit → Fs → Prop} {first : ℕ}
    (hn : 0 < n) (hle : first + n ≤ s.geo.blocks) (hQ : Q ⟨⟩ (s.given first n)) :
    wp (freeBlocksAt first n) Q E s := by
  have hlt : s.geo.bbb < s.geo.blocks := hg.single_lt _ Geometry.Ok.bbb_mem
  have hguard : n ≠ 0 ∧ u32 (first + n) ≤ s.geo.blocks :=
    ⟨by omega, (Nat.mod_le _ _).trans hle⟩
  rw [freeBlocksAt, wp_bind, wp_get, wp_bind, wp_guard]
  refine ⟨fun _ => ?_, fun h => absurd hguard h⟩
  rw [wp_bind, wp_readB1]
  refine ⟨fun _ => ?_, fun h => absurd hlt h⟩
  rw [wp_bind, wp_modify, wp_writeB1]
  exact ⟨fun _ => hQ, fun h => absurd hlt h⟩

/-- The bitmap changes, and nothing else on the disk. -/
theorem taken_disk {first : ℕ} (hle : first + n ≤ 8 * s.geo.bs) : (s.taken first n).disk =
    Function.update s.disk s.geo.bbb ((s.disk s.geo.bbb).setBits first n) := by
  have h := memcpy_back (b := s.b1) (d := s.disk s.geo.bbb) (k := s.geo.bs)
    (fun m => m.setBits first n) (fun _ _ _ => setBits_congr first n) fun _ _ => setBits_of_ge hle
  rw [← h]
  rfl

theorem given_disk {first : ℕ} (hle : first + n ≤ 8 * s.geo.bs) : (s.given first n).disk =
    Function.update s.disk s.geo.bbb ((s.disk s.geo.bbb).clearBits first n) := by
  have h := memcpy_back (b := s.b1) (d := s.disk s.geo.bbb) (k := s.geo.bs)
    (fun m => m.clearBits first n) (fun _ _ _ => clearBits_congr first n) fun _ _ =>
    clearBits_of_ge hle
  rw [← h]
  rfl

/-! ## The inode bitmap -/

/-- The bit that `alloc_inode` is going to set. -/
def nextInode (s : Fs) : Option ℕ := freeInode (s.disk s.geo.ibb) s.geo.ipg

/-- An inode has been taken. -/
def inodeTaken (s : Fs) (i : ℕ) : Fs :=
  let b := (memcpy s.b1 0 (s.disk s.geo.ibb) 0 s.geo.bs).setBit i
  { (s.setB1 b).putBlock s.geo.ibb b with
    born := Function.update s.born (i + 1) (s.born (i + 1) + 1) }

/-- The search looks at the bits of inodes only. -/
theorem freeInode_congr {m m' : Bytes} {k : ℕ} (h : ∀ i < k, m.bit i = m'.bit i) :
    freeInode m k = freeInode m' k := by
  refine List.find?_congr fun i hi => ?_
  rw [h i (List.mem_range.mp hi)]

theorem nextInode_spec (hg : s.geo.Ok) {i : ℕ} (h : s.nextInode = some i) :
    s.geo.IsIno (i + 1) ∧ ¬s.Live (i + 1) := by
  have hmem := List.mem_range.mp (List.mem_of_find?_eq_some h)
  have hbit := List.find?_some h
  rw [hg.ipg] at hmem
  refine ⟨⟨Nat.succ_pos i, hmem⟩, fun hl => ?_⟩
  rw [Live, Nat.add_sub_cancel] at hl
  rw [hl] at hbit
  exact Bool.noConfusion hbit

theorem wp_allocInode (hg : s.geo.Ok) {Q : ℕ → Fs → Prop}
    (hQ : ∀ i, s.nextInode = some i → Q (i + 1) (s.inodeTaken i))
    (hE : s.nextInode = none → E (s.read1 s.geo.ibb)) : wp allocInode Q E s := by
  have hlt : s.geo.ibb < s.geo.blocks := hg.single_lt _ Geometry.Ok.ibb_mem
  have hnext : s.nextInode = freeInode (s.read1 s.geo.ibb).b1 s.geo.ipg := by
    refine freeInode_congr fun i hi => ?_
    have hle := hg.inodes.2
    rw [hg.ipg] at hi
    exact (bit_memcpy (by omega)).symm
  rw [allocInode, wp_bind, wp_get, wp_bind, wp_readB1]
  refine ⟨fun _ => ?_, fun h => absurd hlt h⟩
  rw [wp_bind, wp_get, wp_bind, wp_ofOption]
  constructor
  · intro i hi
    rw [wp_bind, wp_modify, wp_bind, wp_writeB1]
    exact ⟨fun _ => hQ i (hnext.trans hi), fun h => absurd hlt h⟩
  · exact fun hnone => hE (hnext.trans hnone)

theorem inodeTaken_disk {i : ℕ} (hi : i < 8 * s.geo.bs) : (s.inodeTaken i).disk =
    Function.update s.disk s.geo.ibb ((s.disk s.geo.ibb).setBit i) := by
  have h := memcpy_back (b := s.b1) (d := s.disk s.geo.ibb) (k := s.geo.bs)
    (fun m => m.setBits i 1) (fun _ _ _ => setBits_congr i 1) fun _ _ => setBits_of_ge (by omega)
  simp only [setBits_one] at h
  rw [← h]
  rfl

/-! ## Erasing an inode -/

/-- The bit of an inode is clear and its slot is filled with zeroes. -/
def erased (s : Fs) (ino : ℕ) : Fs :=
  let b := (memcpy s.b1 0 (s.disk s.geo.ibb) 0 s.geo.bs).clearBit (ino - 1)
  let s := (s.setB1 b).putBlock s.geo.ibb b
  let b := memset (memcpy s.b1 0 (s.disk (s.geo.slotBlock ino)) 0 s.geo.bs) (s.geo.slotOff ino) 0
    s.geo.inodeSize
  (s.setB1 b).putBlock (s.geo.slotBlock ino) b

theorem wp_eraseInode (hg : s.geo.Ok) (hi : s.geo.IsIno ino) {Q : Unit → Fs → Prop}
    (hQ : Q ⟨⟩ (s.erased ino)) : wp (eraseInode ino) Q E s := by
  have hlt : s.geo.ibb < s.geo.blocks := hg.single_lt _ Geometry.Ok.ibb_mem
  have hlt' := hg.slotBlock_lt hi
  rw [eraseInode, wp_bind, wp_get, wp_bind, wp_readB1]
  refine ⟨fun _ => ?_, fun h => absurd hlt h⟩
  rw [wp_bind, wp_modify, wp_bind, wp_writeB1]
  refine ⟨fun _ => ?_, fun h => absurd hlt h⟩
  rw [wp_bind, wp_readB1]
  refine ⟨fun _ => ?_, fun h => absurd hlt' h⟩
  rw [wp_bind, wp_modify, wp_writeB1]
  exact ⟨fun _ => hQ, fun h => absurd hlt' h⟩

/-! ## The counts -/

/-- The counts have been settled. -/
def committed (s : Fs) (usedBlocks usedInodes usedDirs : ℤ) : Fs :=
  let d := memcpy s.b1 0 (s.disk s.geo.descBlock) 0 s.geo.bs
  let b := setCounts d (r16 d 0x0C - usedBlocks) (r16 d 0x0E - usedInodes) (r16 d 0x10 + usedDirs)
  (((s.setB1 b).putBlock s.geo.descBlock b).settle usedBlocks usedInodes).putSb

/-- The counts do not go below zero. -/
def CanCommit (s : Fs) (usedBlocks usedInodes usedDirs : ℤ) : Prop :=
  let d := s.disk s.geo.descBlock
  0 ≤ r16 d 0x0C - usedBlocks ∧ 0 ≤ r16 d 0x0E - usedInodes ∧ 0 ≤ r16 d 0x10 + usedDirs

theorem r16_memcpy {b d : Bytes} {k p : ℕ} (h : p + 2 ≤ k) :
    r16 (memcpy b 0 d 0 k) p = r16 d p := by
  refine r16_congr fun i hi => ?_
  have h := memcpy_of_lt (m := b) (p := 0) (s := d) (q := 0) (show p + i < k by omega)
  rwa [Nat.zero_add] at h

theorem wp_commitCounts (hg : s.geo.Ok) {ub ui ud : ℤ} {Q : Unit → Fs → Prop}
    (hzero : ub = 0 ∧ ui = 0 ∧ ud = 0 → Q ⟨⟩ s)
    (hQ : ¬(ub = 0 ∧ ui = 0 ∧ ud = 0) → s.CanCommit ub ui ud → Q ⟨⟩ (s.committed ub ui ud))
    (hE : ¬s.CanCommit ub ui ud → E (s.read1 s.geo.descBlock)) :
    wp (commitCounts ub ui ud) Q E s := by
  have hlt : s.geo.descBlock < s.geo.blocks := hg.single_lt _ Geometry.Ok.desc_mem
  have hbs : 1024 ≤ s.geo.bs := by rcases hg.bs with h | h | h <;> omega
  rw [commitCounts, wp_ite]
  refine ⟨hzero, fun hnz => ?_⟩
  rw [wp_bind, wp_get, wp_bind, wp_readB1]
  refine ⟨fun _ => ?_, fun h => absurd hlt h⟩
  rw [wp_bind, wp_get, wp_bind, wp_guard]
  have hcan : (0 ≤ (r16 (s.read1 s.geo.descBlock).b1 0x0C : ℤ) - ub ∧
      0 ≤ (r16 (s.read1 s.geo.descBlock).b1 0x0E : ℤ) - ui ∧
      0 ≤ (r16 (s.read1 s.geo.descBlock).b1 0x10 : ℤ) + ud) ↔ s.CanCommit ub ui ud := by
    rw [read1, setB1_b1, r16_memcpy (by omega), r16_memcpy (by omega), r16_memcpy (by omega)]
    exact Iff.rfl
  rw [hcan]
  refine ⟨fun hc => ?_, hE⟩
  rw [wp_bind, wp_modify, wp_bind, wp_writeB1]
  exact ⟨fun _ => hQ hnz hc, fun h => absurd hlt h⟩

/-- The descriptor and the superblock change, and nothing else on the disk. -/
theorem committed_disk (s : Fs) (ub ui ud : ℤ) {b : ℕ} (hd : b ≠ s.geo.descBlock)
    (hs : b ≠ s.geo.sbBlock) : (s.committed ub ui ud).disk b = s.disk b := by
  rw [committed, putSb_disk]
  exact (Function.update_of_ne hs _ _).trans (Function.update_of_ne hd _ _)

end Fs

end Aurisys
