import Aurisys.Fs.Draft
import Aurisys.Fs.View

/-!
# The loop of `write_at`

A write goes through the blocks of its range one at a time. A block that the map has is read,
changed and written back. At the first one that it does not have, the rest of the range gets a run
of blocks and an extent, and from there on the map has all of them, unless the range goes past the
end of the 32-bit positions and round to the beginning.

## Main definitions

* `place` — the position of a byte of the buffer in the file
* `Poured` — so many bytes of the buffer are on the disk
* `Hole`, `Accepts`, `extended` — the first position without a block, whether it gets one, and the
  image with it

## Main results

* `wp_writeAtLoop`
-/

namespace Aurisys

open Bytes Fallible

namespace Fs

/-- The same state with another disk. -/
def withDisk (s : Fs) (d : ℕ → Bytes) : Fs := { s with disk := d }

/-- Where byte `i` of the buffer goes in the file. -/
def place (off i : ℕ) : ℕ := u32 (off + i)

/-- The first `n` bytes of the buffer are where the map leads to, and nothing else has changed. -/
structure Poured (s : Fs) (img buf : Bytes) (off n : ℕ) (t : Fs) : Prop where
  core : t.core = (s.withDisk t.disk).core
  fresh : ∀ i < n, ∀ p, mapFlat img (place off i / s.geo.bs) = some p →
    t.disk p (place off i % s.geo.bs) = buf i
  old : ∀ p a, (∀ i < n, mapFlat img (place off i / s.geo.bs) = some p →
    place off i % s.geo.bs ≠ a) → t.disk p a = s.disk p a

/-- Byte `d` is the first of the buffer that has no block. -/
structure Hole (g : Geometry) (img : Bytes) (off len d : ℕ) : Prop where
  lt : d < len
  mapped : ∀ i < d, mapFlat img (place off i / g.bs) ≠ none
  hole : mapFlat img (place off d / g.bs) = none

/-- How many blocks are needed from there on. -/
def needed (g : Geometry) (off len d : ℕ) : ℕ :=
  u32 (off + len + (2 ^ 32 - place off d / g.bs * g.bs) + g.bs - 1) / g.bs

/-- It gets a run of blocks. -/
structure Accepts (s : Fs) (img : Bytes) (size off len d first : ℕ) : Prop where
  size : size ≤ place off d
  entries : r16 img 0x2A < 4
  amount : needed s.geo off len d ≠ 0 ∧ needed s.geo off len d ≤ 32767
  run : s.freeRun (needed s.geo off len d) = some first

/-- The image with the run. -/
def extended (g : Geometry) (img : Bytes) (off len d first : ℕ) : Bytes :=
  let img := addExtent img (place off d / g.bs) (needed g off len d) first
  w32 img 0x1C (r32 img 0x1C + needed g off len d * (g.bs / 512))

variable {s s' t t' : Fs} {T : ℕ → Bytes} {img buf : Bytes} {j off len n size d first : ℕ}

theorem place_lt (off i : ℕ) : place off i < 2 ^ 32 := Nat.mod_lt _ (by decide)

theorem place_inj {i k : ℕ} (hi : i < 2 ^ 32) (hk : k < 2 ^ 32) (h : place off i = place off k) :
    i = k := by
  rw [place, place, u32, u32] at h
  omega

/-- The bytes of one block are in a row. -/
theorem place_add (hg : s.geo.Ok) {k : ℕ} (hk : place off n % s.geo.bs + k < s.geo.bs) :
    place off (n + k) = place off n + k := by
  have hlt := place_lt off n
  rw [place, u32] at *
  rw [place, u32]
  rcases hg.bs with hb | hb | hb <;> rw [hb] at hk <;> omega

theorem block_add (hg : s.geo.Ok) {k : ℕ} (hk : place off n % s.geo.bs + k < s.geo.bs) :
    place off (n + k) / s.geo.bs = place off n / s.geo.bs := by
  rw [place_add hg hk]
  exact (div_mod_add hk).1

theorem Poured.geo (h : Poured s img buf off n t) : t.geo = s.geo :=
  (core_geo h.core).trans rfl

theorem Poured.zero (hcore : t.core = s.core) : Poured s img buf off 0 t := by
  refine ⟨?_, fun i hi => absurd hi (Nat.not_lt_zero i), fun p a _ => by rw [core_disk hcore]⟩
  rw [hcore, core_disk hcore]
  rfl

/-- A byte that no position leads to. -/
theorem Poured.disk (h : Poured s img buf off n t) {p : ℕ}
    (hp : ∀ b, mapFlat img b ≠ some p) : t.disk p = s.disk p :=
  funext fun a => h.old p a fun _ _ hm => absurd hm (hp _)

/-- What is read, changed and written back. -/
theorem wp_poke {phys inblk chunk : ℕ} {α : Type} {x : Act α} {Q : α → Fs → Prop} {E : Fs → Prop}
    (hlt : phys < t.geo.blocks) (hin : inblk + chunk ≤ t.geo.bs)
    (hx : ∀ t', t'.core = (t.setDisk phys (memcpy (t.disk phys) inblk buf n chunk)).core →
      t'.ino = t.ino → wp x Q E t') :
    wp (do
      readB1 phys
      modify fun s => s.setB1 (memcpy s.b1 inblk buf n chunk)
      writeB1 phys
      x) Q E t := by
  rw [wp_bind, wp_readB1]
  refine ⟨fun _ => ?_, fun h => absurd hlt h⟩
  rw [wp_bind, wp_modify, wp_bind, wp_writeB1]
  refine ⟨fun _ => hx _ ?_ rfl, fun h => absurd hlt h⟩
  have hback := memcpy_back (b := t.b1) (d := t.disk phys) (k := t.geo.bs)
    (fun m => memcpy m inblk buf n chunk) (fun m m' a h => by simp only [memcpy, h])
    (fun m a ha => memcpy_of_lt_or_ge (by omega))
  rw [← hback]
  rfl

/-- **One block more.** -/
theorem Poured.poke (h : Poured s img buf off n t)
    (hheld : Held s (Function.update T j img) Nothing)
    (hlen : len < 2 ^ 32) {phys chunk : ℕ} (hmap : mapFlat img (place off n / s.geo.bs) = some phys)
    (hchunk : chunk = min (s.geo.bs - place off n % s.geo.bs) (len - n))
    (hcore : s'.core = (t.setDisk phys
      (memcpy (t.disk phys) (place off n % s.geo.bs) buf n chunk)).core) :
    Poured s img buf off (n + chunk) s' := by
  have hbs := hheld.geo.bs_pos
  have hdisk := core_disk hcore
  have hself : Function.update T j img j = img := Function.update_self _ _ _
  have hinj : ∀ b, mapFlat img b = some phys → b = place off n / s.geo.bs := by
    intro b hb
    rw [← hself] at hb hmap
    exact (hheld.mapFlat_inj hb hmap).2
  have hplace : ∀ k < chunk, place off (n + k) = place off n + k :=
    fun k hk => place_add hheld.geo (by omega)
  have hdiv : ∀ k < chunk, (place off n + k) / s.geo.bs = place off n / s.geo.bs ∧
      (place off n + k) % s.geo.bs = place off n % s.geo.bs + k :=
    fun k hk => div_mod_add (by omega)
  refine ⟨?_, fun i hi p hp => ?_, fun p a ha => ?_⟩
  · have h' := core_setDisk h.core phys
      (memcpy (t.disk phys) (place off n % s.geo.bs) buf n chunk)
    rw [hdisk, hcore, h']
    rfl
  · rw [hdisk]
    change Function.update t.disk phys _ p _ = _
    by_cases hnew : n ≤ i
    · obtain ⟨k, rfl⟩ := Nat.exists_eq_add_of_le hnew
      have hk : k < chunk := by omega
      rw [hplace k hk, (hdiv k hk).1, hmap] at hp
      rw [← Option.some.inj hp, Function.update_self, hplace k hk, (hdiv k hk).2, memcpy_of_lt hk]
    · have hfresh := h.fresh i (by omega) p hp
      by_cases hpp : p = phys
      · rw [hpp, Function.update_self, memcpy_of_lt_or_ge]
        · rw [← hpp]
          exact hfresh
        · -- The block is the same, so the byte is one of those in front.
          by_contra hin
          have hb := hinj _ (hpp ▸ hp)
          have h₁ := Nat.div_add_mod (place off i) s.geo.bs
          have h₂ := Nat.div_add_mod (place off n) s.geo.bs
          rw [hb] at h₁
          obtain ⟨k, hk⟩ : ∃ k, place off i = place off n + k ∧ k < chunk :=
            ⟨place off i - place off n, by omega, by omega⟩
          have heq : i = n + k := place_inj (by omega) (by omega) (hk.1.trans (hplace k hk.2).symm)
          omega
      · rw [Function.update_of_ne hpp]
        exact hfresh
  · rw [hdisk]
    change Function.update t.disk phys _ p a = _
    have hold := h.old p a fun i hi => ha i (by omega)
    by_cases hpp : p = phys
    · rw [hpp, Function.update_self, memcpy_of_lt_or_ge]
      · rw [← hpp]
        exact hold
      · by_contra hin
        obtain ⟨k, hk, hk'⟩ : ∃ k, a = place off n % s.geo.bs + k ∧ k < chunk :=
          ⟨a - place off n % s.geo.bs, by omega, by omega⟩
        refine ha (n + k) (by omega) ?_ ?_
        · rw [hplace k hk', (hdiv k hk').1, hpp]
          exact hmap
        · rw [hplace k hk', (hdiv k hk').2, hk]
    · rw [Function.update_of_ne hpp]
      exact hold

/-! ## The loop -/

theorem img_flat (hheld : Held s (Function.update T j img) Nothing) (hgeo : t.geo = s.geo)
    (hino : t.ino = img) : Flat t.geo t.ino := by
  rw [hgeo, hino]
  have := hheld.flat j
  rwa [Function.update_self] at this

/-- The bitmap is metadata, and stays. -/
theorem Poured.bbb (h : Poured s img buf off n t)
    (hheld : Held s (Function.update T j img) Nothing) : t.disk s.geo.bbb = s.disk s.geo.bbb := by
  refine h.disk fun b hb => ?_
  have hb' : mapFlat (Function.update T j img j) b = some s.geo.bbb := by
    rwa [Function.update_self]
  exact hheld.mapFlat_not_meta hb' (Geometry.Ok.single_meta Geometry.Ok.bbb_mem)

theorem Poured.freeRun (h : Poured s img buf off n t)
    (hheld : Held s (Function.update T j img) Nothing) (k : ℕ) : t.freeRun k = s.freeRun k := by
  have hhint : t.hint = s.hint := (of_core Fs.hint (fun _ => rfl) h.core).trans rfl
  rw [Fs.freeRun, Fs.freeRun, h.geo, h.bbb hheld, hhint]

/-! ## The new extent -/

section

variable (hheld : Held s (Function.update T j img) Nothing)
  (ha : Accepts s img size off len d first)

include hheld

theorem img_held : Flat s.geo img := by
  have := hheld.flat j
  rwa [Function.update_self] at this

include ha

theorem extended_run : 0 < needed s.geo off len d ∧ first + needed s.geo off len d ≤ s.geo.blocks :=
  have h := hheld.freeRun ha.run
  ⟨h.1, h.2.1⟩

theorem flat_addExtent : Flat s.geo
    (addExtent img (place off d / s.geo.bs) (needed s.geo off len d) first) :=
  (img_held hheld).addExtent ha.entries ⟨(extended_run hheld ha).1, ha.amount.2⟩
    (extended_run hheld ha).2 hheld.blocks_lt

/-- **The run belongs to the image.** -/
theorem held_extended : Held (s.taken first (needed s.geo off len d))
    (Function.update T j (extended s.geo img off len d first)) Nothing := by
  have hself : Function.update T j img j = img := Function.update_self _ _ _
  have hX : (fun b => Run first (needed s.geo off len d) b ∨ Nothing b)
      = Run first (needed s.geo off len d) := by
    funext b
    exact propext (or_iff_left id)
  have htaken := hheld.taken ha.run
  have hadd :=
    htaken.addExtent (j := j) (l := place off d / s.geo.bs) hX (by rw [hself]; exact ha.entries)
    ⟨(extended_run hheld ha).1, ha.amount.2⟩ (extended_run hheld ha).2
  rw [hself, Function.update_idem] at hadd
  have hmap : SameMap (extended s.geo img off len d first) (Function.update T j
      (addExtent img (place off d / s.geo.bs) (needed s.geo off len d) first) j) := by
    rw [Function.update_self]
    exact .w32 _ _ (by omega)
  have hupd := hadd.updateMap hmap
  rwa [Function.update_idem] at hupd

/-- The map of the image goes on where there was no block. -/
theorem mapFlat_extended (hmagic : r16 img 0x28 = kExtMagic) (b : ℕ) :
    mapFlat (extended s.geo img off len d first) b = (mapFlat img b).or
      (if place off d / s.geo.bs ≤ b ∧ b < place off d / s.geo.bs + needed s.geo off len d then
        some (first + (b - place off d / s.geo.bs)) else none) := by
  have hlt := place_lt off d
  have hblocks := hheld.geo.blocks_le
  have hrun := (extended_run hheld ha).2
  have hdiv : place off d / s.geo.bs ≤ place off d / 1024 := by
    refine Nat.div_le_div_left ?_ (by decide)
    rcases hheld.geo.bs with hb | hb | hb <;> omega
  have hmap : SameMap (extended s.geo img off len d first)
      (addExtent img (place off d / s.geo.bs) (needed s.geo off len d) first) := .w32 _ _ (by omega)
  rw [hmap.mapFlat (flat_addExtent hheld ha)]
  exact mapFlat_addExtent (img_held hheld) hmagic ha.entries ha.amount.2 (by omega)
    (by have := ha.amount.2; omega) b

theorem extended_of_some (hmagic : r16 img 0x28 = kExtMagic) {b p : ℕ}
    (hb : mapFlat img b = some p) :
    mapFlat (extended s.geo img off len d first) b = some p := by
  rw [mapFlat_extended hheld ha hmagic, hb, Option.some_or]

omit ha hheld in
theorem isFile_extended (hfile : IsFile img) (he : r16 img 0x2A < 4) :
    IsFile (extended s.geo img off len d first) := by
  have h : r16 (extended s.geo img off len d first) 0 = r16 img 0 := by
    refine r16_congr fun k hk => ?_
    rw [extended, w32_of_lt_or_ge (by omega)]
    exact addExtent_apply img _ _ first (by omega) (by omega)
  rw [IsFile, h]
  exact hfile

/-- What has been written so far is still there. -/
theorem Poured.extend (h : Poured s img buf off n t) (hmagic : r16 img 0x28 = kExtMagic)
    (hfront : ∀ i < n, mapFlat img (place off i / s.geo.bs) ≠ none)
    (hcore : t'.core = (t.taken first (needed s.geo off len d)).core) :
    Poured (s.taken first (needed s.geo off len d)) (extended s.geo img off len d first)
      buf off n t' := by
  have hle := hheld.le_bits (extended_run hheld ha).2
  have hdisk := core_disk hcore
  have ht : (t.taken first (needed s.geo off len d)).disk = _ := taken_disk (by rwa [h.geo])
  have hs := taken_disk (s := s) hle
  rw [h.geo] at ht
  have hne : ∀ {b p : ℕ}, mapFlat img b = some p → p ≠ s.geo.bbb := by
    rintro b p hb rfl
    have hb' : mapFlat (Function.update T j img j) b = some s.geo.bbb := by
      rwa [Function.update_self]
    exact hheld.mapFlat_not_meta hb' (Geometry.Ok.single_meta Geometry.Ok.bbb_mem)
  refine ⟨?_, fun i hi p hp => ?_, fun p a ha' => ?_⟩
  · rw [hcore, hdisk]
    exact congrArg (fun c : Fs => { c.withDisk (t.taken first (needed s.geo off len d)).disk with
      hint := u32 (first + needed s.geo off len d) % c.geo.blocks }) h.core
  · obtain ⟨p', hp'⟩ := Option.ne_none_iff_exists'.mp (hfront i hi)
    have hp : mapFlat (extended s.geo img off len d first) (place off i / s.geo.bs) = some p := hp
    rw [extended_of_some hheld ha hmagic hp'] at hp
    obtain rfl := Option.some.inj hp
    change t'.disk p' (place off i % s.geo.bs) = _
    rw [hdisk, ht, Function.update_of_ne (hne hp')]
    exact h.fresh i hi p' hp'
  · rw [hdisk, ht, hs]
    by_cases hp : p = s.geo.bbb
    · rw [hp, Function.update_self, Function.update_self, h.bbb hheld]
    · rw [Function.update_of_ne hp, Function.update_of_ne hp]
      refine h.old p a fun i hi hm => ha' i hi ?_
      exact extended_of_some hheld ha hmagic hm

end

/-- Where a run ends that goes on to the end of the range, or as far as 32 bits say. -/
theorem needed_arith {bs i : ℕ} (hbs : bs = 1024 ∨ bs = 2048 ∨ bs = 4096) (hlen : len < 2 ^ 32)
    (hd : d ≤ i) (hi : i < len) (hoi : off + i < 2 ^ 32)
    (hneed : (off + len + (2 ^ 32 - (off + d) / bs * bs) + bs - 1) % 2 ^ 32 / bs ≠ 0)
    (hneed₁ : (off + len + (2 ^ 32 - (off + i) / bs * bs) + bs - 1) % 2 ^ 32 / bs ≠ 0)
    (hneed₂ : (off + len + (2 ^ 32 - (off + i) / bs * bs) + bs - 1) % 2 ^ 32 / bs ≤ 32767)
    (hrow : (off + i) / bs ≤ (off + d) / bs + 32768) :
    (off + i) / bs < (off + d) / bs +
      (off + len + (2 ^ 32 - (off + d) / bs * bs) + bs - 1) % 2 ^ 32 / bs := by
  rcases hbs with rfl | rfl | rfl <;> omega

/-- **No position behind needs another run.** -/
theorem needed_once (hg : s.geo.Ok) (hoff : off < 2 ^ 32) (hlen : len < 2 ^ 32) (hsize : off ≤ size)
    {i : ℕ} (hi : d ≤ i) (hilen : i < len) (hd : size ≤ place off d) (his : size ≤ place off i)
    (hneed : needed s.geo off len d ≠ 0) (hneed₁ : needed s.geo off len i ≠ 0)
    (hneed₂ : needed s.geo off len i ≤ 32767)
    (hrow : off + i < 2 ^ 32 → (off + i) / s.geo.bs ≤ (off + d) / s.geo.bs + 32768) :
    place off d / s.geo.bs ≤ place off i / s.geo.bs ∧
      place off i / s.geo.bs < place off d / s.geo.bs + needed s.geo off len d := by
  -- Behind the end of 32 bits the positions are in front of the range.
  have hround : ∀ k < len, size ≤ place off k → off + k < 2 ^ 32 := by
    intro k hk hs
    rw [place, u32] at hs
    omega
  have hplace : ∀ k < len, size ≤ place off k → place off k = off + k :=
    fun k hk hs => Nat.mod_eq_of_lt (hround k hk hs)
  have hpd := hplace d (by omega) hd
  have hpi := hplace i hilen his
  rw [needed, u32, hpd] at hneed
  rw [needed, u32, hpi] at hneed₁ hneed₂
  rw [needed, u32, hpd, hpi]
  exact ⟨Nat.div_le_div_right (by omega),
    needed_arith hg.bs hlen hi hilen (hround i hilen his) hneed hneed₁ hneed₂
      (hrow (hround i hilen his))⟩

/-- The blocks between two positions are no more than the volume has, if they are all there. -/
theorem row_between (hheld : Held s (Function.update T j img) Nothing) {i : ℕ}
    (hbefore : ∀ k < i, mapFlat img (place off k / s.geo.bs) ≠ none)
    (hoi : off + i < 2 ^ 32) : (off + i) / s.geo.bs ≤ (off + d) / s.geo.bs + 32768 := by
  have hbs := hheld.geo.bs_pos
  have hblocks := hheld.geo.blocks_le
  suffices h : (off + i) / s.geo.bs - (off + d) / s.geo.bs ≤ s.geo.blocks by omega
  refine hheld.row_le (k := j) (a := (off + d) / s.geo.bs) fun m hm => ?_
  rw [Function.update_self]
  -- The last byte of that block is in front of byte `i`.
  generalize hb : (off + d) / s.geo.bs + m = b
  have hle : s.geo.bs * (b + 1) ≤ off + i :=
    (Nat.mul_le_mul_left _ (by omega)).trans (Nat.mul_div_le _ _)
  have hge : off + d < s.geo.bs * (b + 1) :=
    (Nat.lt_mul_div_succ _ hbs).trans_le (Nat.mul_le_mul_left _ (by omega))
  rw [Nat.mul_succ] at hle hge
  obtain ⟨k, hk⟩ := Nat.exists_eq_add_of_le (show off ≤ s.geo.bs * b + (s.geo.bs - 1) by omega)
  have hplace : place off k = s.geo.bs * b + (s.geo.bs - 1) := by
    rw [place, ← hk]
    exact Nat.mod_eq_of_lt (by omega)
  have hblock : place off k / s.geo.bs = b := by
    rw [hplace, Nat.mul_add_div hbs, Nat.div_eq_of_lt (Nat.sub_lt hbs Nat.one_pos), Nat.add_zero]
  rw [← hblock]
  exact hbefore k (by omega)

/-- **With all blocks there**, but for those that a write must not add. -/
theorem wp_writeAtLoop_mapped (hheld : Held s (Function.update T j img) Nothing)
    (hfile : IsFile img)
    (hlen : len < 2 ^ 32) {fuel total : ℕ} (hpoured : Poured s img buf off n t) (hino : t.ino = img)
    (hn : n ≤ len) (hfuel : len < n + fuel)
    (hmapped : ∀ i, n ≤ i → i < len → (∀ k < i, mapFlat img (place off k / s.geo.bs) ≠ none) →
      size ≤ place off i → needed s.geo off len i ≠ 0 → needed s.geo off len i ≤ 32767 →
        mapFlat img (place off i / s.geo.bs) ≠ none)
    (hfront : ∀ i < n, mapFlat img (place off i / s.geo.bs) ≠ none) :
    wp (writeAtLoop buf off len size fuel n total)
      (fun r t' => r = total ∧ t'.ino = img ∧ Poured s img buf off len t' ∧
        ∀ i < len, mapFlat img (place off i / s.geo.bs) ≠ none)
      (fun t' => ∃ m, Poured s img buf off m t' ∧
        ∀ i < m, mapFlat img (place off i / s.geo.bs) ≠ none) t := by
  have hself : Function.update T j img j = img := Function.update_self _ _ _
  induction fuel generalizing n t with
  | zero => omega
  | succ fuel ih =>
    rw [writeAtLoop, wp_ite]
    refine ⟨fun hle => ?_, fun hlt => ?_⟩
    · obtain rfl : n = len := by omega
      exact ⟨rfl, hino, hpoured, hfront⟩
    · have hbs := hheld.geo.bs_pos
      have hgeo := hpoured.geo
      rw [wp_bind, wp_get]
      dsimp only
      rw [wp_bind, wp_attempt, hgeo]
      refine wp_mapLblock (img_flat hheld hgeo hino) (.inl (hino ▸ hfile)) (fun phys hm => ?_)
        fun hnone => ?_
      · rw [hino] at hm
        dsimp only
        generalize hchunk : min (s.geo.bs - u32 (off + n) % s.geo.bs) (len - n) = chunk
        have hin : place off n % s.geo.bs < s.geo.bs := Nat.mod_lt _ hbs
        have hchunk : chunk = min (s.geo.bs - place off n % s.geo.bs) (len - n) := hchunk.symm
        refine wp_poke ?_ ?_ fun t' hcore hino' => ?_
        · rw [hgeo]
          exact hheld.mapFlat_lt (hself.symm ▸ hm)
        · rw [hgeo]
          change place off n % s.geo.bs + chunk ≤ _
          omega
        · refine ih (hpoured.poke hheld hlen hm hchunk hcore) (hino'.trans hino)
            (by omega) (by omega)
            (fun i hi => hmapped i (by omega)) fun i hi => ?_
          by_cases hold : i < n
          · exact hfront i hold
          · obtain ⟨k, rfl⟩ := Nat.exists_eq_add_of_le (Nat.le_of_not_lt hold)
            rw [block_add hheld.geo (by omega)]
            exact Option.ne_none_iff_exists'.mpr ⟨phys, hm⟩
      · rw [hino] at hnone
        dsimp only
        rw [wp_bind, wp_guard]
        refine ⟨fun hs => ?_, fun _ => ⟨n, hpoured, hfront⟩⟩
        rw [wp_bind, wp_get, wp_bind, wp_guard]
        refine ⟨fun _ => ?_, fun _ => ⟨n, hpoured, hfront⟩⟩
        rw [wp_bind, wp_guard]
        exact ⟨fun hneed => absurd hnone (hmapped n le_rfl (by omega) hfront hs hneed.1 hneed.2),
          fun _ => ⟨n, hpoured, hfront⟩⟩

/-- **Where a run is granted**, the loop goes to the end, or it leaves a part of the range
written. -/
theorem wp_writeAtLoop_granted (hheld : Held s (Function.update T j img) Nothing)
    (hfile : IsFile img)
    (hmagic : r16 img 0x28 = kExtMagic) (hoff : off < 2 ^ 32) (hlen : len < 2 ^ 32)
    (hsize : off ≤ size) {fuel : ℕ} (hpoured : Poured s img buf off n t)
    (hhole : Hole s.geo img off len n)
    (ha : Accepts s img size off len n first) (hfuel : len < n + fuel)
    (hcore : t'.core = (t.taken first (needed s.geo off len n)).core)
    (hino : t'.ino = extended s.geo img off len n first) :
    wp (writeAtLoop buf off len size fuel n (needed s.geo off len n))
      (fun r t' => r = needed s.geo off len n ∧ t'.ino = extended s.geo img off len n first ∧
        Poured (s.taken first (needed s.geo off len n)) (extended s.geo img off len n first)
          buf off len t' ∧
        ∀ i < len, mapFlat (extended s.geo img off len n first) (place off i / s.geo.bs) ≠ none)
      (fun t' => ∃ m, Poured (s.taken first (needed s.geo off len n))
        (extended s.geo img off len n first) buf off m t' ∧
        ∀ i < m, mapFlat (extended s.geo img off len n first)
        (place off i / s.geo.bs) ≠ none) t' := by
  have hext := hpoured.extend hheld ha hmagic hhole.mapped hcore
  have hmapped : ∀ i, n ≤ i → i < len →
      (∀ k < i, mapFlat (extended s.geo img off len n first) (place off k / s.geo.bs) ≠ none) →
      size ≤ place off i → needed s.geo off len i ≠ 0 → needed s.geo off len i ≤ 32767 →
      mapFlat (extended s.geo img off len n first) (place off i / s.geo.bs) ≠ none := by
    intro i hi hilen hbefore his h₁ h₂
    have hin := needed_once hheld.geo hoff hlen hsize hi hilen ha.size his ha.amount.1 h₁ h₂
      (row_between (held_extended hheld ha) hbefore)
    rw [mapFlat_extended hheld ha hmagic, if_pos hin]
    cases mapFlat img (place off i / s.geo.bs) <;> simp
  have hfront : ∀ i < n,
      mapFlat (extended s.geo img off len n first) (place off i / s.geo.bs) ≠ none := by
    intro i hi
    obtain ⟨p, hp⟩ := Option.ne_none_iff_exists'.mp (hhole.mapped i hi)
    rw [extended_of_some hheld ha hmagic hp]
    exact Option.some_ne_none p
  exact wp_writeAtLoop_mapped (held_extended hheld ha) (isFile_extended hfile ha.entries)
    hlen hext hino
    hhole.lt.le hfuel hmapped hfront

/-- **The loop of `write_at`** on a flat file. -/
theorem wp_writeAtLoop (hheld : Held s (Function.update T j img) Nothing) (hfile : IsFile img)
    (hmagic : r16 img 0x28 = kExtMagic) (hoff : off < 2 ^ 32) (hlen : len < 2 ^ 32)
    (hsize : off ≤ size) {fuel : ℕ} (hpoured : Poured s img buf off n t) (hino : t.ino = img)
    (hn : n ≤ len) (hfuel : len + 1 < n + fuel)
    (hfront : ∀ i < n, mapFlat img (place off i / s.geo.bs) ≠ none) :
    wp (writeAtLoop buf off len size fuel n 0)
      (fun r t' =>
        (r = 0 ∧ t'.ino = img ∧ Poured s img buf off len t' ∧
          ∀ i < len, mapFlat img (place off i / s.geo.bs) ≠ none) ∨
        ∃ d first, Hole s.geo img off len d ∧ Accepts s img size off len d first ∧
          r = needed s.geo off len d ∧ t'.ino = extended s.geo img off len d first ∧
          Poured (s.taken first (needed s.geo off len d)) (extended s.geo img off len d first)
            buf off len t' ∧
          ∀ i < len, mapFlat (extended s.geo img off len d first) (place off i / s.geo.bs) ≠ none)
      (fun t' =>
        (∃ d, Hole s.geo img off len d ∧ (∀ first, ¬Accepts s img size off len d first) ∧
          Poured s img buf off d t') ∨
        ∃ d first m, Hole s.geo img off len d ∧ Accepts s img size off len d first ∧
          Poured (s.taken first (needed s.geo off len d)) (extended s.geo img off len d first)
            buf off m t' ∧
          ∀ i < m, mapFlat (extended s.geo img off len d first)
          (place off i / s.geo.bs) ≠ none) t := by
  have hself : Function.update T j img j = img := Function.update_self _ _ _
  induction fuel generalizing n t with
  | zero => omega
  | succ fuel ih =>
    rw [writeAtLoop, wp_ite]
    refine ⟨fun hle => ?_, fun hlt => ?_⟩
    · obtain rfl : n = len := by omega
      exact .inl ⟨rfl, hino, hpoured, hfront⟩
    · have hbs := hheld.geo.bs_pos
      have hgeo := hpoured.geo
      rw [wp_bind, wp_get]
      dsimp only
      rw [wp_bind, wp_attempt, hgeo]
      refine wp_mapLblock (img_flat hheld hgeo hino) (.inl (hino ▸ hfile)) (fun phys hm => ?_)
        fun hnone => ?_
      · rw [hino] at hm
        dsimp only
        generalize hchunk : min (s.geo.bs - u32 (off + n) % s.geo.bs) (len - n) = chunk
        have hin : place off n % s.geo.bs < s.geo.bs := Nat.mod_lt _ hbs
        have hchunk : chunk = min (s.geo.bs - place off n % s.geo.bs) (len - n) := hchunk.symm
        refine wp_poke ?_ ?_ fun t' hcore hino' => ?_
        · rw [hgeo]
          exact hheld.mapFlat_lt (hself.symm ▸ hm)
        · rw [hgeo]
          change place off n % s.geo.bs + chunk ≤ _
          omega
        · refine ih (hpoured.poke hheld hlen hm hchunk hcore) (hino'.trans hino)
            (by omega) (by omega)
            fun i hi => ?_
          by_cases hold : i < n
          · exact hfront i hold
          · obtain ⟨k, rfl⟩ := Nat.exists_eq_add_of_le (Nat.le_of_not_lt hold)
            rw [block_add hheld.geo (by omega)]
            exact Option.ne_none_iff_exists'.mpr ⟨phys, hm⟩
      · rw [hino] at hnone
        have hhole : Hole s.geo img off len n := ⟨by omega, hfront, hnone⟩
        have hrefused : (∀ first, ¬Accepts s img size off len n first) →
            ∃ d, Hole s.geo img off len d ∧ (∀ first, ¬Accepts s img size off len d first) ∧
              Poured s img buf off d t := fun hr => ⟨n, hhole, hr, hpoured⟩
        dsimp only
        rw [wp_bind, wp_guard]
        refine ⟨fun hs => ?_, fun hs => .inl (hrefused fun _ ha => hs ha.size)⟩
        rw [wp_bind, wp_get, wp_bind, wp_guard, hino]
        refine ⟨fun he => ?_, fun he => .inl (hrefused fun _ ha => he ha.entries)⟩
        rw [wp_bind, wp_guard]
        refine ⟨fun hneed => ?_, fun hneed => .inl (hrefused fun _ ha => hneed ha.amount)⟩
        rw [wp_bind]
        refine wp_allocBlocks (hgeo ▸ hheld.geo) (fun first hrun => ?_) fun hrun => ?_
        · have ha : Accepts s img size off len n first :=
            ⟨hs, he, hneed, (hpoured.freeRun hheld _).symm.trans hrun⟩
          rw [wp_bind, wp_modify]
          have hrest := wp_writeAtLoop_granted hheld hfile hmagic hoff hlen hsize hpoured hhole ha
            (show len < n + fuel by omega)
            (rfl : ((t.taken first (needed s.geo off len n)).setIno
              (extended s.geo img off len n first)).core = _) rfl
          have hino₁ : (t.taken first (needed s.geo off len n)).ino = img := hino
          rw [Nat.zero_add]
          change wp (writeAtLoop buf off len size fuel n (needed s.geo off len n)) _ _
            ((t.taken first (needed s.geo off len n)).setIno
              (extended s.geo (t.taken first (needed s.geo off len n)).ino off len n first))
          rw [hino₁]
          refine wp_mono hrest ?_ ?_
          · rintro r t' ⟨rfl, hino', hpoured', hall⟩
            exact .inr ⟨n, first, hhole, ha, rfl, hino', hpoured', hall⟩
          · rintro t' ⟨m, hm⟩
            exact .inr ⟨n, first, m, hhole, ha, hm⟩
        · have hno : ∀ first, ¬Accepts s img size off len n first := by
            intro first ha
            have := (hpoured.freeRun hheld _).trans ha.run
            exact Option.some_ne_none _ (this.symm.trans hrun)
          refine ⟨.inl (hrefused hno), .inl ⟨n, hhole, hno, ?_⟩⟩
          exact ⟨hpoured.core, hpoured.fresh, hpoured.old⟩

end Fs

end Aurisys
