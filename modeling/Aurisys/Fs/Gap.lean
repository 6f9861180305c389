import Aurisys.Fs.Write

/-!
# Writing behind the end

Where `write_at` is to begin behind the end of the file, it fills the gap first. It calls itself for
one piece after the other, each up to the end of a block, and hands over a buffer with 512 zeroes. A
piece can be longer than that: then the call reads what is behind the buffer, and that is what gets
into the file.

The call for a piece begins where the file ends at that time, so it does not fill a gap itself.

## Main definitions

* `gapChunks` — the pieces: where they begin and how long they are
* `Short` — none of them is longer than the buffer
* `Filled` — the gap has been filled up to a position

## Main results

* `wp_writeAt_behind`
* `zeroed_iff` — when the gap reads as zeroes, and nothing behind the buffer is read
-/

namespace Aurisys

open Bytes Fallible

namespace Fs

/-- The pieces that `fillGap` fills the gap with. -/
def gapChunks (bs off : ℕ) : ℕ → ℕ → List (ℕ × ℕ)
  | 0, _ => []
  | fuel + 1, at_ =>
    if off ≤ at_ then []
    else
      let chunk := min (off - at_) (bs - at_ % bs)
      (at_, chunk) :: gapChunks bs off fuel (at_ + chunk)

variable {s t u : Fs} {buf : Bytes} {ino off len n bs size fuel at_ p : ℕ}

theorem mem_gapChunks {c : ℕ × ℕ} (h : c ∈ gapChunks bs off fuel at_) :
    at_ ≤ c.1 ∧ c.1 < off ∧ c.2 = min (off - c.1) (bs - c.1 % bs) := by
  induction fuel generalizing at_ with
  | zero => exact absurd h (List.not_mem_nil)
  | succ fuel ih =>
    rw [gapChunks] at h
    split at h
    · exact absurd h (List.not_mem_nil)
    · rcases List.mem_cons.mp h with rfl | h
      · exact ⟨le_rfl, by omega, rfl⟩
      · have hc := ih h
        exact ⟨by omega, hc.2⟩

/-- **The rule for the gap**: what the call for a piece brings from one end of it to the other, the
loop brings from the one end of the gap to the other. -/
theorem wp_fillGap {write : Bytes → ℕ → ℕ → Act Unit} {I : ℕ → Fs → Prop}
    {E : Fs → Prop} {b : Bytes}
    (hbs : 0 < bs) (hI : ∀ p t, I p t → t.geo.bs = bs ∧ zeroes t.stack = b)
    (hstep : ∀ c ∈ gapChunks bs off fuel at_, ∀ t, I c.1 t →
      wp (write b c.1 c.2) (fun _ => I (c.1 + c.2)) E t)
    (hle : at_ ≤ off) (hfuel : off < at_ + fuel) (h : I at_ s) :
    wp (fillGap write off fuel at_) (fun _ => I off) E s := by
  induction fuel generalizing at_ s with
  | zero => omega
  | succ fuel ih =>
    rw [fillGap, wp_ite]
    constructor
    · intro hend
      obtain rfl : at_ = off := by omega
      exact h
    · intro hlt
      have hmod : at_ % bs < bs := Nat.mod_lt _ hbs
      obtain ⟨hgeo, hzero⟩ := hI at_ s h
      rw [wp_bind, wp_get, hgeo, hzero, wp_bind]
      rw [gapChunks, if_neg hlt] at hstep
      have hfirst := hstep _ (List.mem_cons_self ..) s h
      refine wp_mono hfirst (fun _ t ht => ?_) fun _ => id
      exact ih (fun c hc => hstep c (List.mem_cons_of_mem _ hc)) (by omega) (by omega) ht

/-! ## The buffer of zeroes -/

/-- Byte `i` from the beginning of the buffer is read for some piece. -/
def GapRead (bs size off i : ℕ) : Prop := ∃ c ∈ gapChunks bs off (off - size + 1) size, i < c.2

/-- The gap ends in the block the file ends in, or in the next one, and neither part is longer than
the buffer. -/
def Short (bs size off : ℕ) : Prop :=
  off - size ≤ 512 ∨ bs - size % bs ≤ 512 ∧ off - size - (bs - size % bs) ≤ 512

instance (bs size off : ℕ) : Decidable (Short bs size off) := inferInstanceAs (Decidable (_ ∨ _))

/-- A piece in the middle is a whole block. -/
theorem chunks_short {fuel : ℕ} (hbs : 512 < bs) (hfuel : off < at_ + fuel) (hmod : at_ % bs = 0) :
    (∀ c ∈ gapChunks bs off fuel at_, c.2 ≤ 512) ↔ off - at_ ≤ 512 := by
  cases fuel with
  | zero => exact ⟨fun _ => by omega, fun _ c hc => absurd hc (List.not_mem_nil)⟩
  | succ fuel =>
    rw [gapChunks]
    split
    · exact ⟨fun _ => by omega, fun _ c hc => absurd hc (List.not_mem_nil)⟩
    · next hlt =>
      rw [List.forall_mem_cons]
      constructor
      · rintro ⟨hfirst, -⟩
        dsimp only at hfirst
        omega
      · intro hgap
        refine ⟨by dsimp only; omega, fun c hc => ?_⟩
        have := mem_gapChunks hc
        omega

/-- **No piece is longer than the buffer** just where the gap is short. -/
theorem gapRead_iff (hbs : 512 < bs) (hgap : size < off) :
    (∀ i, GapRead bs size off i → i < 512) ↔ Short bs size off := by
  have hall : (∀ i, GapRead bs size off i → i < 512) ↔
      ∀ c ∈ gapChunks bs off (off - size + 1) size, c.2 ≤ 512 := by
    constructor
    · intro h c hc
      by_contra hlong
      exact absurd (h 512 ⟨c, hc, by omega⟩) (lt_irrefl 512)
    · rintro h i ⟨c, hc, hi⟩
      have := h c hc
      omega
  have hmod : size % bs < bs := Nat.mod_lt _ (by omega)
  rw [hall, gapChunks, if_neg (by omega), List.forall_mem_cons, Short]
  dsimp only
  by_cases hone : off - size ≤ bs - size % bs
  · rw [min_eq_left hone]
    constructor
    · exact fun h => .inl h.1
    · refine fun h => ⟨by omega, fun c hc => ?_⟩
      have := mem_gapChunks hc
      omega
  · rw [min_eq_right (by omega)]
    have hnext : (size + (bs - size % bs)) % bs = 0 := by
      have hdiv := Nat.div_add_mod size bs
      have heq : size + (bs - size % bs) = bs * (size / bs + 1) := by
        rw [Nat.mul_succ]
        omega
      rw [heq, Nat.mul_mod_right]
    rw [chunks_short hbs (by omega) hnext]
    omega

/-! ## Filling -/

/-- The file goes to `stop`. What was behind its old end are bytes from the beginning of the buffer
of zeroes, and everything else is as it was. -/
structure Filled (s : Fs) (ino n stop : ℕ) (u : Fs) : Prop where
  geo : u.geo = s.geo
  stack : u.stack = s.stack
  live : ∀ k, u.Live k ↔ s.Live k
  valid : Valid u
  /-- The other inodes are as they were. -/
  kept : ∀ k, k ≠ ino → s.Live k → Kept s u k
  /-- The image in `g_ino` is that on the disk. -/
  loaded : Same u.ino (u.inodes ino)
  /-- It is a file still, -/
  file : IsFile (u.inodes ino)
  /-- with extents. -/
  magic : r16 (u.inodes ino) 0x28 = kExtMagic
  /-- It ends at `stop`. -/
  size : inodeSize (u.inodes ino) = stop
  /-- The gap has bytes of the buffer of zeroes, -/
  zero : ∀ q, inodeSize (s.inodes ino) ≤ q → q < stop →
    ∃ i < n, u.byteAt (u.inodes ino) q = some (zeroes s.stack i)
  /-- and what was in front of it is there. -/
  old : ∀ q c, q < inodeSize (s.inodes ino) → s.byteAt (s.inodes ino) q = some c →
    u.byteAt (u.inodes ino) q = some c
  /-- No block has been given back. -/
  used : ∀ b, s.Used b → u.Used b

theorem Kept.refl (s : Fs) (ino : ℕ) : Kept s s ino := ⟨rfl, .refl _, fun _ _ _ => rfl⟩

theorem Kept.trans (h : Kept s t ino) (h' : Kept t u ino) (hf : Flat s.geo (s.inodes ino)) :
    Kept s u ino where
  geo := h'.geo.trans h.geo
  image := h'.image.trans h.image
  blocks i b hc := (h'.blocks i b ((h.image.sameMap.covers hf).mpr hc)).trans (h.blocks i b hc)

theorem Filled.intact (h : Filled s ino n p u) : Intact s ino u :=
  ⟨h.geo, h.stack, h.live, h.valid, h.kept, h.file, h.magic⟩

theorem Intact.trans (h : Intact s ino t) (hv : Valid s) (h' : Intact t ino u) :
    Intact s ino u where
  geo := h'.geo.trans h.geo
  stack := h'.stack.trans h.stack
  live k := (h'.live k).trans (h.live k)
  valid := h'.valid
  kept k hk hl := (h.kept k hk hl).trans (h'.kept k hk ((h.live k).mpr hl))
    (table_of_live hl ▸ hv.flat k)
  file := h'.file
  magic := h'.magic

/-- Nothing has been filled. -/
theorem Filled.start (hv : Valid s) (hfile : IsFile (s.inodes ino))
    (hmagic : r16 (s.inodes ino) 0x28 = kExtMagic) (hcore : t.core = s.core)
    (hsame : Same t.ino (s.inodes ino)) : Filled s ino n (inodeSize (s.inodes ino)) t := by
  have hinodes := core_inodes hcore
  refine ⟨core_geo hcore, of_core Fs.stack (fun _ => rfl) hcore, fun _ => core_live hcore,
    hv.of_core hcore, fun k _ _ => (Kept.refl t k).of_core hcore, hinodes ▸ hsame, hinodes ▸ hfile,
    hinodes ▸ hmagic, by rw [hinodes], fun q hq hq' => absurd hq (by omega), fun q c _ hc => ?_,
    fun b => (core_used hcore).mpr⟩
  rw [byteAt_core hcore, hinodes]
  exact hc

/-- **One piece more.** -/
theorem Filled.step {c : ℕ} (h : Filled s ino n p t) (hw : Written t ino (zeroes s.stack) p c u)
    (hv : Valid s) (hsize : inodeSize (s.inodes ino) ≤ p) (hc : c ≤ n) (hlt : p + c < 2 ^ 32) :
    Filled s ino n (p + c) u := by
  have hplace : ∀ i < c, place p i = p + i := fun i hi => Nat.mod_eq_of_lt (by omega)
  have hboth := h.intact.trans hv hw.intact
  refine ⟨hboth.geo, hboth.stack, hboth.live, hboth.valid, hboth.kept, hw.loaded,
    hw.file, hw.magic, ?_,
    fun q hq hq' => ?_, fun q a hq ha => ?_, fun b hb => hw.used b (h.used b hb)⟩
  · rw [hw.size, h.size, u32, Nat.mod_eq_of_lt hlt, max_eq_right (Nat.le_add_right p c)]
  · by_cases hold : q < p
    · obtain ⟨i, hi, hz⟩ := h.zero q hq hold
      refine ⟨i, hi, hw.old q _ (fun k hk => ?_) hz⟩
      have := hplace k hk
      omega
    · obtain ⟨i, rfl⟩ := Nat.exists_eq_add_of_le (Nat.le_of_not_lt hold)
      refine ⟨i, by omega, ?_⟩
      rw [← hplace i (by omega)]
      exact hw.fresh i (by omega)
  · refine hw.old q a (fun k hk => ?_) (h.old q a hq ha)
    have := hplace k hk
    omega

/-- How long the first piece is. -/
def firstChunk (bs size off : ℕ) : ℕ := min (off - size) (bs - size % bs)

/-- What a call leaves that fails and was to begin behind the end: the file is larger, or the call
for the first piece has failed. -/
def LeavesGap (s : Fs) (ino off : ℕ) (u : Fs) : Prop :=
  let size := inodeSize (s.inodes ino)
  let chunk := firstChunk s.geo.bs size off
  u.geo = s.geo ∧ (size < inodeSize (u.inodes ino) ∧ (∀ d, ¬Refused s ino size chunk d) ∨
    Leaves s ino (zeroes s.stack) size chunk u)

/-- **A call that begins behind the end** of the file. -/
theorem wp_writeAt_behind (hv : Valid s) (hi : s.geo.IsIno ino) (hl : s.Live ino)
    (hfile : IsFile (s.inodes ino)) (hmagic : r16 (s.inodes ino) 0x28 = kExtMagic)
    (hoff : off < 2 ^ 32) (hlen : len < 2 ^ 32) (hgap : inodeSize (s.inodes ino) < off)
    (hn :
      ∀ c ∈ gapChunks s.geo.bs off (off - inodeSize (s.inodes ino) + 1) (inodeSize (s.inodes ino)),
      c.2 ≤ n) :
    wp (writeAt ino buf off len)
      (fun _ u => (∀ d, ¬Refused s ino (inodeSize (s.inodes ino))
          (firstChunk s.geo.bs (inodeSize (s.inodes ino)) off) d) ∧
        ∃ t, Filled s ino n off t ∧ Written t ino buf off len u)
      (fun u => LeavesGap s ino off u ∧ Intact s ino u) s := by
  generalize hsize : inodeSize (s.inodes ino) = size at *
  generalize hchunk : firstChunk s.geo.bs size off = chunk
  -- Between two pieces: at the first one nothing has happened, and later it has been granted.
  let I : ℕ → Fs → Prop := fun p t => Filled s ino n p t ∧
    (p = size ∧ t.core = s.core ∨ size < p ∧ ∀ d, ¬Refused s ino size chunk d)
  have hbs := hv.geo.bs_pos
  have hleaves : ∀ {p : ℕ} {t u : Fs} {b : Bytes} {o l : ℕ}, Filled s ino n p t → size < p →
      (∀ d, ¬Refused s ino size chunk d) → Leaves t ino b o l u ∧ GivenUp t ino o l u →
      LeavesGap s ino off u ∧ Intact s ino u := by
    intro p t u b o l hfill hlt hgranted hu
    have hle := hu.1.size
    rw [hfill.size] at hle
    simp only [LeavesGap, hsize, hchunk]
    exact ⟨⟨hu.1.geo.trans hfill.geo, .inl ⟨by omega, hgranted⟩⟩,
      hfill.intact.trans hv hu.2.toIntact⟩
  refine wp_writeAtBody hv hi hl hfile fun t hcore hsame => ?_
  have hstart : I size t := ⟨hsize ▸ .start hv hfile hmagic hcore hsame, .inl ⟨rfl, hcore⟩⟩
  rw [hsize]
  refine wp_mono (wp_fillGap (I := I) (b := zeroes s.stack) hbs ?_ ?_ hgap.le (by omega) hstart) ?_
    fun _ => id
  · exact fun p t h => ⟨by rw [h.1.geo], by rw [h.1.stack]⟩
  · rintro c hc t ⟨hfill, hwhere⟩
    obtain ⟨hle, hlt, hc₂⟩ := mem_gapChunks hc
    have hmod : c.1 % s.geo.bs < s.geo.bs := Nat.mod_lt _ hbs
    refine wp_mono (wp_writeAt_inside hfill.valid (hfill.geo.symm ▸ hi) ((hfill.live ino).mpr hl)
      hfill.file hfill.magic (by omega) (by omega) hfill.size.ge) (fun _ u hu => ?_) fun u hu => ?_
    · refine ⟨hfill.step hu hv (hsize ▸ hle) (hn c hc) (by omega), .inr ⟨by omega, ?_⟩⟩
      rcases hwhere with ⟨hp, hcore⟩ | ⟨_, hgranted⟩
      · have hu := (hu.of_core hcore).granted
        rwa [hp, hc₂, hp, ← firstChunk, hchunk] at hu
      · exact hgranted
    · rcases hwhere with ⟨hp, hcore⟩ | ⟨hp, hgranted⟩
      · have hleaves := hu.1.of_core hcore
        rw [hp, hc₂, hp, ← firstChunk] at hleaves
        simp only [LeavesGap, hsize]
        exact ⟨⟨hleaves.geo, .inr hleaves⟩, hu.2.toIntact.of_core hcore⟩
      · exact hleaves hfill hp hgranted hu
  · rintro _ t ⟨hfill, hwhere⟩
    have hgranted := (hwhere.resolve_left fun h => hgap.ne' h.1).2
    refine wp_mono (wp_writeTail hfill.valid (hfill.geo.symm ▸ hi)
      ((hfill.live ino).mpr hl) hfill.loaded
      hfill.file hfill.magic hoff hlen hfill.size.ge) (fun _ u hu => ⟨hgranted, t, hfill,
        hu.1⟩) fun u hu => ?_
    exact hleaves hfill hgap hgranted hu.1

/-! ## What the gap reads as -/

/-- The gap reads as zeroes, and filling it reads no byte outside the buffer of zeroes. -/
def Zeroed (s : Fs) (ino off : ℕ) (u : Fs) : Prop :=
  let size := inodeSize (s.inodes ino)
  u.readBytes ino (off - size) size = List.replicate (off - size) 0 ∧
    ∀ i, GapRead s.geo.bs size off i → i < 512

theorem byteAt_ne_none {img : Bytes} {q : ℕ} :
    s.byteAt img q ≠ none ↔ mapFlat img (q / s.geo.bs) ≠ none := by
  rw [byteAt, ne_eq, Option.map_eq_none_iff]

/-- A file does not have a block for every position there is. -/
theorem not_all_mapped (hv : Valid s) (hl : s.Live ino) :
    ¬∀ q < 2 ^ 32, s.byteAt (s.inodes ino) q ≠ none := by
  intro hall
  have hblocks := hv.geo.blocks_le
  have hbs := hv.geo.bs_pos
  have hbs_le := hv.geo.bs_le
  have hrow := hv.row_le (k := ino) (a := 0) (m := 2 ^ 20) fun i hi => by
    rw [table_of_live hl, Nat.zero_add]
    have hlt : i * s.geo.bs < 2 ^ 32 := by
      calc i * s.geo.bs ≤ i * 4096 := Nat.mul_le_mul_left i hbs_le
        _ < 2 ^ 32 := by omega
    have := byteAt_ne_none.mp (hall _ hlt)
    rwa [Nat.mul_div_cancel _ hbs] at this
  omega

/-- The range that is written does not come round to the gap. -/
theorem place_not_in_gap (hl : s.Live ino) (hfill : Filled s ino n off t)
    (hw : Written t ino buf off len u) (hoff : off < 2 ^ 32) (hlen : len < 2 ^ 32) {q : ℕ}
    (hq : inodeSize (s.inodes ino) ≤ q) (hq' : q < off) : ∀ i < len, place off i ≠ q := by
  intro i hi he
  have hlu : u.Live ino := (hw.live ino).mpr ((hfill.live ino).mpr hl)
  refine not_all_mapped hw.valid hlu fun r hr => ?_
  -- Either the write has been at `r`, or the gap was there.
  by_cases hin : ∃ k < len, place off k = r
  · obtain ⟨k, hk, rfl⟩ := hin
    rw [hw.fresh k hk]
    exact Option.some_ne_none _
  · have hout : ∀ k < len, place off k ≠ r := fun k hk he => hin ⟨k, hk, he⟩
    have hgap : inodeSize (s.inodes ino) ≤ r ∧ r < off := by
      rw [place, u32] at he
      constructor
      · by_contra hlow
        refine hout (2 ^ 32 + r - off) (by omega) ?_
        rw [place, u32]
        omega
      · by_contra hhigh
        refine hout (r - off) (by omega) ?_
        rw [place, u32]
        omega
    obtain ⟨z, -, hz⟩ := hfill.zero r hgap.1 hgap.2
    rw [hw.old r _ hout hz]
    exact Option.some_ne_none _

/-- **The gap reads as zeroes, and nothing else is read to fill it**, just where it is short. -/
theorem zeroed_iff (hv : Valid s) (hi : s.geo.IsIno ino) (hl : s.Live ino)
    (hfile : IsFile (s.inodes ino)) (hmagic : r16 (s.inodes ino) 0x28 = kExtMagic)
    (hoff : off < 2 ^ 32) (hlen : len < 2 ^ 32) (hgap : inodeSize (s.inodes ino) < off)
    (h : exec (writeAt ino buf off len) s = (some ⟨⟩, u)) :
    Zeroed s ino off u ↔ Short s.geo.bs (inodeSize (s.inodes ino)) off := by
  have hbs : 512 < s.geo.bs := by
    rcases hv.geo.bs with hb | hb | hb <;> omega
  rw [← gapRead_iff hbs hgap]
  refine ⟨And.right, fun hshort => ⟨?_, hshort⟩⟩
  have hn :
    ∀ c ∈ gapChunks s.geo.bs off (off - inodeSize (s.inodes ino) + 1) (inodeSize (s.inodes ino)),
      c.2 ≤ 512 := by
    intro c hc
    by_contra hlong
    exact absurd (hshort 512 ⟨c, hc, by omega⟩) (lt_irrefl 512)
  obtain ⟨-, t, hfill, hw⟩ :=
    wp_of_some (wp_writeAt_behind hv hi hl hfile hmagic hoff hlen hgap hn) h
  have hgeo : u.geo = s.geo := hw.geo.trans hfill.geo
  have hlu : u.Live ino := (hw.live ino).mpr ((hfill.live ino).mpr hl)
  rw [readBytes_eq hw.valid.geo (hgeo ▸ hi) (table_of_live hlu ▸ hw.valid.flat ino), if_pos hw.file,
    hw.size, hfill.size]
  have hlong : off - inodeSize (s.inodes ino) ≤
      max off (u32 (off + len)) - inodeSize (s.inodes ino) := by omega
  rw [min_eq_left hlong]
  have hzero : ((List.range (off - inodeSize (s.inodes ino))).map
      fun i => u.byteAt (u.inodes ino) (inodeSize (s.inodes ino) + i)) =
      (List.range (off - inodeSize (s.inodes ino))).map fun _ => some 0 := by
    refine List.map_congr_left fun i hi => ?_
    have hi := List.mem_range.mp hi
    obtain ⟨z, hz, hbyte⟩ := hfill.zero (inodeSize (s.inodes ino) + i) (by omega) (by omega)
    rw [hw.old _ _ (place_not_in_gap hl hfill hw hoff hlen (by omega) (by omega)) hbyte, zeroes,
      if_pos hz]
  rw [hzero, upTo_some, List.map_const', List.length_range]

theorem zeroed_filed : Zeroed filed 12 10 (exec (writeAt 12 (ofStr [97]) 10 1) filed).2 ↔
    Short filed.geo.bs (inodeSize (filed.inodes 12)) 10 :=
  have hrun : (exec (writeAt 12 (ofStr [97]) 10 1) filed).1 = some ⟨⟩ := by decide +kernel
  zeroed_iff valid_filed (by decide) (by decide +kernel) (by decide +kernel) (by decide +kernel)
    (by decide) (by decide) (by decide +kernel) (exec_eq hrun)

/-- The file has three bytes, and the gap goes to byte 700. -/
theorem gap_of_697 : Valid filed ∧ filed.Live 12 ∧ IsFile (filed.inodes 12) ∧
    (exec (writeAt 12 (ofStr [97]) 700 1) filed).1 = some ⟨⟩ ∧
    (exec (writeAt 12 (ofStr [97]) 700 1) filed).2.readBytes 12 2 514 = [0, 85] ∧
    ¬Zeroed filed 12 700 (exec (writeAt 12 (ofStr [97]) 700 1) filed).2 := by
  refine ⟨valid_filed, by decide +kernel, by decide +kernel, by decide +kernel, by decide +kernel,
    fun h => ?_⟩
  have hsize : inodeSize (filed.inodes 12) = 3 := by decide +kernel
  have hread : GapRead 1024 3 700 600 := ⟨(3, 697), by decide +kernel, by decide⟩
  have hout := h.2 600 (hsize.symm ▸ hread)
  exact absurd hout (by decide)

end Fs

end Aurisys
