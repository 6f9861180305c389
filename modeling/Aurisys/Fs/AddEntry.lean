import Aurisys.Fs.Truncate
import Aurisys.Fs.Entries

/-!
# A directory with an entry more

`dir_add_entry` puts the new record behind the last one of the first block that has room there, and
if no block has, it takes another block for the directory. Where it does not find one it gives up,
and no inode in use has changed.

## Main definitions

* `HasRoom` — there is room in a block, or the directory can have another
* `Added` — the directory has the entry, and nothing else has changed
* `Unharmed` — no inode in use has changed

## Main results

* `DirOk.wp_addInBlock`, `DirOk.wp_growDir`
* `DirOk.wp_dirAddEntry`
-/

namespace Aurisys

open Bytes Fallible

namespace Fs

/-- A block of the directory has room for the name, or there is a block for it. -/
def HasRoom (s : Fs) (d : ℕ) (name : Str) : Prop :=
  (∃ b < s.dirBlocks d, s.roomAt d (direntUsed name.length) b = true) ∨
    r16 (s.inodes d) 0x2A < 4 ∧ s.freeRun 1 ≠ none

instance (s : Fs) (d : ℕ) (name : Str) : Decidable (s.HasRoom d name) :=
  inferInstanceAs (Decidable (_ ∨ _))

/-- No inode in use has changed, and neither have their blocks. -/
structure Unharmed (s u : Fs) : Prop where
  geo : u.geo = s.geo
  stack : u.stack = s.stack
  live : ∀ k, s.Live k → u.Live k
  valid : Valid u
  kept : ∀ k, s.Live k → Kept s u k

/-- The directory is in order and has the entry somewhere among the others. The other inodes in use
are as they were. -/
structure Added (s : Fs) (d : ℕ) (e : Dirent) (u : Fs) : Prop where
  geo : u.geo = s.geo
  stack : u.stack = s.stack
  live : ∀ k, u.Live k ↔ s.Live k
  /-- The descriptor is as it was. -/
  desc : u.disk s.geo.descBlock = s.disk s.geo.descBlock
  valid : Valid u
  /-- The other inodes are as they were. -/
  kept : ∀ k, k ≠ d → s.Live k → Kept s u k
  /-- The directory is in order. -/
  dirOk : DirOk u d
  /-- It has one entry more. -/
  entries : ∃ l₁ l₂, s.dirEntries d = l₁ ++ l₂ ∧ u.dirEntries d = l₁ ++ e :: l₂

variable {s t u : Fs} {d b p ino type : ℕ} {l l' : List ℕ} {name : Str} {e : Dirent} {m D : Bytes}

/-- The buffers do not matter. -/
theorem Valid.unharmed (hv : Valid s) (hcore : u.core = s.core) : Unharmed s u :=
  ⟨core_geo hcore, Fs.of_core Fs.stack (fun _ => rfl) hcore, fun _ => (core_live hcore).mpr,
    hv.of_core hcore,
    fun k _ => (Kept.refl u k).of_core hcore⟩

/-- The entries of one block are one more. -/
theorem flatMap_range_insert {f g : ℕ → List Dirent} {n : ℕ} {ds es : List Dirent} (hb : b < n)
    (hf : f b = ds ++ es) (hg : g b = ds ++ e :: es) (hne : ∀ c, c ≠ b → g c = f c) :
    ∃ l₁ l₂, (List.range n).flatMap f = l₁ ++ l₂ ∧ (List.range n).flatMap g = l₁ ++ e :: l₂ := by
  induction n with
  | zero => exact absurd hb (Nat.not_lt_zero b)
  | succ n ih =>
    simp only [List.range_succ, List.flatMap_append, List.flatMap_singleton]
    by_cases hlast : b = n
    · subst hlast
      have hfront : (List.range b).flatMap g = (List.range b).flatMap f := by
        refine List.flatMap_congr fun c hc => hne c ?_
        exact (List.mem_range.mp hc).ne
      refine ⟨(List.range b).flatMap f ++ ds, es, ?_, ?_⟩
      · rw [hf, List.append_assoc]
      · rw [hfront, hg, List.append_assoc]
    · obtain ⟨l₁, l₂, h₁, h₂⟩ := ih (by omega)
      exact ⟨l₁, l₂ ++ f n, by rw [h₁, List.append_assoc], by
        rw [h₂, hne n (Ne.symm hlast), List.append_assoc, List.cons_append]⟩

/-! ## In a block the directory has -/

namespace Chain

/-- A block has a record, and so a last one. -/
theorem exists_last {bs : ℕ} (h : Chain m bs l) (hbs : 0 < bs) : ∃ l' x, l = l' ++ [x] := by
  rcases List.eq_nil_or_concat l with rfl | ⟨l', x, rfl⟩
  · have := h.hops
    cases this
    exact absurd hbs (lt_irrefl 0)
  · exact ⟨l', x, List.concat_eq_append⟩

end Chain

/-- **A block of the directory is written**, and has an entry more. -/
theorem DirOk.wrote (hd : DirOk s d) (hv : Valid s) (hb : b < s.dirBlocks d)
    (hm : mapFlat (s.inodes d) b = some p) (hcore : u.core = (s.setDisk p D).core)
    (hchain : Chain D s.geo.bs l) (hents : l.filterMap (direntAt D) = s.blockEntries d b ++ [e]) :
    Added s d e u := by
  have h := hd.rewritten hv hm hcore
  have hmeta : ¬s.geo.IsMeta p :=
    hv.mapFlat_not_meta (table_of_live hd.live ▸ hm : mapFlat (s.table d) b = some p)
  have hhere : u.blockEntries d b = s.blockEntries d b ++ [e] :=
    (h.blockEntries hm hchain).trans hents
  refine ⟨h.geo, h.stack, h.live, h.rest _ (ne_of_not_meta hmeta Geometry.Ok.desc_mem),
    h.valid, h.kept,
    h.dirOk hd (h.inOrder hd hm hchain), ?_⟩
  rw [dirEntries, dirEntries, h.dirBlocks]
  exact flatMap_range_insert hb (List.append_nil _).symm hhere fun c => h.blockEntries_of_ne

/-- The block has a record more, and the entry is in it. -/
def Extended (s : Fs) (p : ℕ) (l : List ℕ) (e : Dirent) (u : Fs) : Prop :=
  ∃ D l', u.core = (s.setDisk p D).core ∧ Chain D s.geo.bs l' ∧
    l'.filterMap (direntAt D) = l.filterMap (direntAt (s.disk p)) ++ [e]

/-- **One round of the loop**, in a block that is in order. -/
theorem wp_addInBlock_of (hg : s.geo.Ok) (hlt : p < s.geo.blocks)
    (hchain : Chain (s.disk p) s.geo.bs l)
    (hname : DirentName name) (hino : 0 < ino ∧ ino < 2 ^ 32) (htype : type < 256)
    (hread : wp (readDirBlock d b) (fun q u => q = p ∧ u.core = s.core ∧
      ∀ a < s.geo.bs, u.b2 a = s.disk p a)
      (fun _ => False) t) :
    wp (addInBlock d name ino type b)
      (fun done u => done = roomIn (s.disk p) s.geo.bs (direntUsed name.length) ∧
        if done then Extended s p l ⟨ino, name, type⟩ u else u.core = s.core)
      (fun _ => False) t := by
  have hbs := hg.bs_le
  obtain ⟨l, x, rfl⟩ := hchain.exists_last hg.bs_pos
  have hroom := hchain.room (List.mem_append_right l (List.mem_singleton_self x))
  have hfits := hchain.fits x (List.mem_append_right l (List.mem_singleton_self x))
  rw [nextRec] at hroom
  have hat : roomIn (s.disk p) s.geo.bs (direntUsed name.length) = decide (direntUsed name.length ≤
      u32 (s.geo.bs - x + 2 ^ 32 - direntUsed (s.disk p (x + 6)).toNat)) := by
    simp only [roomIn, hchain.tailEntry]
  rw [addInBlock, wp_bind]
  refine wp_mono hread ?_ fun _ => id
  rintro p s' ⟨rfl, hcore₁, hb2⟩
  have hgeo₁ := core_geo hcore₁
  -- The buffer has the same records.
  have hchain₁ := hchain.congr hb2
  have hlen : s'.b2 (x + 6) = s.disk p (x + 6) := hb2 _ (by omega)
  rw [wp_bind, wp_get, wp_bind, wp_ofOption, hgeo₁, hchain₁.tailEntry, hlen]
  refine ⟨?_, fun hn => absurd hn (Option.some_ne_none _)⟩
  rintro _ ⟨⟩
  generalize hused : direntUsed (s.disk p (x + 6)).toNat = used at hat hfits
  have hu : u32 (s.geo.bs - x + 2 ^ 32 - used) = s.geo.bs - x - used := by
    rw [u32]
    omega
  rw [hu] at hat
  dsimp only
  rw [hu, wp_ite, hat]
  constructor
  · intro hle
    have hneed := le_direntUsed name.length
    have hrest : u32 (s.geo.bs + 2 ^ 32 - (x + used)) = s.geo.bs - (x + used) := by
      rw [u32]
      omega
    rw [wp_bind, wp_setWriteB2, hgeo₁, hrest, wp_pure]
    refine ⟨fun _ => ⟨(decide_eq_true hle).symm, ?_⟩, fun hn => absurd hlt hn⟩
    rw [if_pos rfl]
    generalize hB : putDirent (w16 s'.b2 (x + 4) used) (x + used) ino (s.geo.bs - (x + used))
      name type = B
    have hused' : used = direntUsed (s'.b2 (x + 6)).toNat := by rw [hlen, hused]
    obtain ⟨hput, hold⟩ := hchain₁.putLast (by omega) hname (by omega) hused' hB.symm
    have hnew : direntAt B (x + used) = some ⟨ino, name, type⟩ := by
      rw [← hB]
      exact direntAt_putDirent hino hname htype
    generalize hD : memcpy (s.disk p) 0 B 0 s.geo.bs = D
    have hin : ∀ a < s.geo.bs, D a = B a := by
      intro a ha
      rw [← hD, memcpy_zero_of_lt ha, Nat.zero_add]
    refine ⟨D, _, ?_, hput.congr hin, ?_⟩
    · rw [putBlock_eq]
      change (s'.core.setDisk p (memcpy (s'.disk p) 0 B 0 s'.geo.bs)) = _
      rw [hcore₁, core_disk hcore₁, hgeo₁, hD]
      rfl
    · rw [hput.filterMap_congr hin, List.filterMap_append, List.filterMap_congr hold,
        hchain.filterMap_congr hb2, List.filterMap_cons, hnew]
      rfl
  · exact fun hle => ⟨(decide_eq_false hle).symm, hcore₁⟩

/-- **The loop over the blocks**, when it is known what each round does. -/
theorem wp_addInBlocks_of {room : ℕ → Bool} {P : Fs → Prop} {bl : List ℕ}
    (hround : ∀ b ∈ bl, ∀ t : Fs, t.core = s.core → wp (addInBlock d name ino type b)
      (fun done u => done = room b ∧ if done then P u else u.core = s.core) (fun _ => False) t)
    (hcore : t.core = s.core) :
    wp (addInBlocks d name ino type bl)
      (fun done u => (done = true ↔ ∃ b ∈ bl, room b = true) ∧ if done then P u
        else u.core = s.core)
      (fun _ => False) t := by
  induction bl generalizing t with
  | nil => exact ⟨by simp, hcore⟩
  | cons b bl ih =>
    rw [addInBlocks, wp_bind]
    refine wp_mono (hround b (List.mem_cons_self ..) t hcore) ?_ fun _ => id
    rintro done u ⟨hdone, hu⟩
    cases done with
    | true => exact ⟨⟨fun _ => ⟨b, List.mem_cons_self .., hdone.symm⟩, fun _ => rfl⟩, hu⟩
    | false =>
      refine wp_mono (ih (fun c hc => hround c (List.mem_cons_of_mem _ hc)) hu) ?_ fun _ => id
      rintro done v ⟨hiff, hv'⟩
      refine ⟨hiff.trans ?_, hv'⟩
      simp [← hdone]

theorem DirOk.wp_addInBlock (hd : DirOk s d) (hv : Valid s) (hname : DirentName name)
    (hino : 0 < ino ∧ ino < 2 ^ 32) (htype : type < 256) (hb : b < s.dirBlocks d)
    (hcore : t.core = s.core) :
    wp (addInBlock d name ino type b)
      (fun done u => done = s.roomAt d (direntUsed name.length) b ∧
        if done then Added s d ⟨ino, name, type⟩ u else u.core = s.core)
      (fun _ => False) t := by
  have hg := hv.geo
  have hgeo := core_geo hcore
  have hinodes := core_inodes hcore
  obtain ⟨p, l, hm, hchain⟩ := hd.blocks b hb
  have hlt : p < s.geo.blocks :=
    hv.mapFlat_lt (table_of_live hd.live ▸ hm : mapFlat (s.table d) b = some p)
  have hat : s.roomAt d (direntUsed name.length) b = roomIn (s.disk p) s.geo.bs
      (direntUsed name.length) := by
    rw [roomAt, hm]
  rw [hat]
  refine wp_mono (wp_addInBlock_of hg hlt hchain hname hino htype ?_) ?_ fun _ => id
  · refine wp_readDirBlock_of (hgeo ▸ hg) (hgeo ▸ hd.isIno)
      (by rw [hgeo, hinodes]; exact hd.flat hv)
      (hinodes ▸ hd.dir) (hinodes ▸ hm) fun s' hcore' hb2 => ⟨rfl, hcore'.trans hcore, ?_⟩
    rw [hgeo, core_disk hcore] at hb2
    exact hb2
  · rintro done u ⟨hdone, hu⟩
    refine ⟨hdone, ?_⟩
    cases done with
    | true =>
      obtain ⟨D, l', hcore', hchain', hents⟩ := hu
      exact hd.wrote hv hb hm hcore' hchain' (by rw [hents, blockEntries_of hm hchain])
    | false => exact hu

/-- **The loop over the blocks.** -/
theorem DirOk.wp_addInBlocks (hd : DirOk s d) (hv : Valid s) (hname : DirentName name)
    (hino : 0 < ino ∧ ino < 2 ^ 32) (htype : type < 256) {bl : List ℕ}
    (hbl : ∀ b ∈ bl, b < s.dirBlocks d)
    (hcore : t.core = s.core) :
    wp (addInBlocks d name ino type bl)
      (fun done u => (done = true ↔ ∃ b ∈ bl, s.roomAt d (direntUsed name.length) b = true) ∧
        if done then Added s d ⟨ino, name, type⟩ u else u.core = s.core)
      (fun _ => False) t :=
  wp_addInBlocks_of (fun b hb _ => hd.wp_addInBlock hv hname hino htype (hbl b hb)) hcore

/-! ## In a new block -/

/-- The image of a directory with a block more. -/
def grownDir (img : Bytes) (n p size bs : ℕ) : Bytes :=
  let img := w32 (addExtent img n 1 p) 4 (size + bs)
  w32 img 0x1C (r32 img 0x1C + bs / 512)

theorem sameMap_grownDir (img : Bytes) (n p size bs : ℕ) :
    SameMap (grownDir img n p size bs) (addExtent img n 1 p) :=
  (SameMap.w32 _ _ (by omega)).trans (.w32 _ _ (by omega))

theorem inodeSize_grownDir {img : Bytes} {n size bs : ℕ} (he : r16 img 0x2A < 4)
    (hhigh : r32 img 0x6C = 0)
    (hlt : size + bs < 2 ^ 32) : inodeSize (grownDir img n p size bs) = size + bs := by
  have hhigh' : r32 (grownDir img n p size bs) 0x6C = 0 := by
    rw [← hhigh]
    refine r32_congr fun i hi => ?_
    rw [grownDir, w32_of_lt_or_ge (by omega), w32_of_lt_or_ge (by omega)]
    exact addExtent_apply img n 1 p (by omega) (by omega)
  have hlow : r32 (grownDir img n p size bs) 4 = size + bs := by
    rw [grownDir, r32_w32_of_disjoint (by omega), r32_w32_self, Nat.mod_eq_of_lt hlt]
  rw [inodeSize, if_neg (not_not_intro hhigh'), hlow]

/-- A directory has no more blocks than the volume. -/
theorem DirOk.blocks_le (hd : DirOk s d) (hv : Valid s) : s.dirBlocks d ≤ s.geo.blocks := by
  refine hv.row_le (k := d) (a := 0) fun i hi => ?_
  obtain ⟨p, l, hm, -⟩ := hd.blocks i hi
  rw [table_of_live hd.live, Nat.zero_add, hm]
  exact Option.some_ne_none p

theorem core_taken {first n : ℕ} (h : t.core = s.core) (hle : first + n ≤ 8 * s.geo.bs) :
    (t.taken first n).core = (s.taken first n).core := by
  have hparts : ∀ r : Fs, (r.taken first n).core =
      { r.core with disk := (r.taken first n).disk, hint := u32 (first + n) % r.geo.blocks } :=
      fun _ => rfl
  rw [hparts, hparts, taken_disk hle, taken_disk (core_geo h ▸ hle), core_geo h, core_disk h, h]

/-- The block that is going to be taken is on the volume and not in use. -/
theorem free_of_freeRun (hv : Valid s) (hrun : s.freeRun 1 = some p) :
    p < s.geo.blocks ∧ ¬s.Used p := by
  obtain ⟨-, hle, hclear⟩ := hv.freeRun hrun
  exact ⟨by omega, hclear p le_rfl (by omega)⟩

/-- It holds no metadata. -/
theorem not_meta_of_freeRun (hv : Valid s) (hrun : s.freeRun 1 = some p) : ¬s.geo.IsMeta p :=
  fun hm => (free_of_freeRun hv hrun).2 (hv.own.kept_used p hm)

section Took

theorem took_geo (hcore : t.core = ((s.taken p 1).setDisk p D).core) : t.geo = s.geo :=
  (core_geo hcore).trans rfl

theorem took_self (hcore : t.core = ((s.taken p 1).setDisk p D).core) : t.disk p = D := by
  rw [core_disk hcore]
  exact Function.update_self _ _ _

/-- The bitmap and the block have changed, and nothing else on the disk. -/
theorem took_disk (hg : s.geo.Ok) (hlt : p < s.geo.blocks)
    (hcore : t.core = ((s.taken p 1).setDisk p D).core) {c : ℕ} (hc : c ≠ s.geo.bbb) (hp : c ≠ p) :
    t.disk c = s.disk c := by
  rw [core_disk hcore]
  refine (Function.update_of_ne hp _ _).trans ?_
  rw [taken_disk ((Nat.succ_le_of_lt hlt).trans hg.blocks), Function.update_of_ne hc]

theorem took_inodes (hg : s.geo.Ok) (hlt : p < s.geo.blocks) (hmeta : ¬s.geo.IsMeta p)
    (hcore : t.core = ((s.taken p 1).setDisk p D).core) : t.inodes = s.inodes :=
  inodes_congr (took_geo hcore) fun _ hi => took_disk hg hlt hcore
    (hg.slotBlock_ne hi Geometry.Ok.bbb_mem) fun he => hmeta (he ▸ hg.slotBlock_meta hi)

/-- **The blocks are those it had, as they were, and one behind them.** -/
structure OneMore (s u : Fs) (d n p : ℕ) : Prop where
  geo : u.geo = s.geo
  before : s.dirBlocks d = n
  after : u.dirBlocks d = n + 1
  old : ∀ b q, mapFlat (s.inodes d) b = some q → mapFlat (u.inodes d) b = some q ∧
    u.disk q = s.disk q
  absent : ∀ b, b ≠ n → mapFlat (s.inodes d) b = none → mapFlat (u.inodes d) b = none
  new : mapFlat (u.inodes d) n = some p

theorem OneMore.dirEntries {n : ℕ} (h : OneMore s u d n p) (hchain : Chain (u.disk p) s.geo.bs [0])
    (hent : direntAt (u.disk p) 0 = some e) : u.dirEntries d = s.dirEntries d ++ [e] := by
  have hlast : u.blockEntries d n = [e] := by
    rw [blockEntries_of h.new (by rw [h.geo]; exact hchain), List.filterMap_cons, hent]
    rfl
  have hrest : ∀ c ∈ List.range n, u.blockEntries d c = s.blockEntries d c := by
    intro c hc
    rw [blockEntries, blockEntries, h.geo]
    cases hq : mapFlat (s.inodes d) c with
    | none => rw [h.absent c (List.mem_range.mp hc).ne hq]
    | some q =>
      obtain ⟨hm, hdisk⟩ := h.old c q hq
      rw [hm]
      show dirents (u.disk q) _ _ 0 = dirents (s.disk q) _ _ 0
      rw [hdisk]
  rw [Fs.dirEntries, Fs.dirEntries, h.after, h.before, List.range_succ, List.flatMap_append,
    List.flatMap_singleton, hlast,
    List.flatMap_congr hrest]

theorem OneMore.blocks {n : ℕ} (h : OneMore s u d n p) (hd : DirOk s d)
    (hchain : Chain (u.disk p) s.geo.bs [0]) :
    (∀ b < u.dirBlocks d, ∃ q l, mapFlat (u.inodes d) b = some q ∧ Chain (u.disk q) u.geo.bs l) ∧
      ∀ b, u.dirBlocks d ≤ b → mapFlat (u.inodes d) b = none := by
  rw [h.after, h.geo]
  refine ⟨fun b hb => ?_, fun b hb => ?_⟩
  · by_cases hlast : b = n
    · exact ⟨p, [0], hlast ▸ h.new, hchain⟩
    · obtain ⟨q, l, hq, hl⟩ := hd.blocks b (by rw [h.before]; omega)
      obtain ⟨hm, hdisk⟩ := h.old b q hq
      exact ⟨q, l, hm, hdisk.symm ▸ hl⟩
  · exact h.absent b (by omega) (hd.behind b (by rw [h.before]; omega))

variable (hv : Valid s) (hrun : s.freeRun 1 = some p)
  (hcore : t.core = ((s.taken p 1).setDisk p D).core)

include hv hrun hcore

theorem took_live (k : ℕ) : t.Live k ↔ s.Live k := by
  rw [Live, Live, took_geo hcore, took_disk hv.geo (free_of_freeRun hv hrun).1 hcore
    hv.geo.bbb_ne_ibb.symm
    (ne_of_not_meta (not_meta_of_freeRun hv hrun) Geometry.Ok.ibb_mem)]

theorem took_table : t.table = s.table := by
  have hinodes := took_inodes hv.geo (free_of_freeRun hv hrun).1 (not_meta_of_freeRun hv hrun) hcore
  funext k
  simp only [table, hinodes, took_live hv hrun hcore]

/-- The block is spare. -/
theorem took_held : Held t s.table (Run p 1) := by
  have hX : (fun b => Run p 1 b ∨ Nothing b) = Run p 1 := by
    funext b
    exact propext (or_iff_left id)
  have htaken := Held.taken hv hrun
  rw [hX] at htaken
  exact (htaken.setDisk D (htaken.spare_not_meta ⟨le_rfl, Nat.lt_succ_self p⟩)).of_core hcore

theorem took_kept {k : ℕ} (hl : s.Live k) : Kept s t k := by
  have hlt := (free_of_freeRun hv hrun).1
  have hinodes := took_inodes hv.geo hlt (not_meta_of_freeRun hv hrun) hcore
  refine ⟨took_geo hcore, by rw [hinodes]; exact .refl _, fun i c hc => ?_⟩
  rw [← table_of_live hl] at hc
  refine took_disk hv.geo hlt hcore (ne_of_not_meta (hv.not_meta hc) Geometry.Ok.bbb_mem).symm ?_
  rintro rfl
  exact (free_of_freeRun hv hrun).2 (hv.own.own_used (k, i) c hc)

/-- **A block has been taken, and no directory has it.** -/
theorem took_unharmed : Unharmed s t := by
  refine ⟨took_geo hcore, (of_core Fs.stack (fun _ => rfl) hcore).trans rfl,
    fun k => (took_live hv hrun hcore k).mpr, ?_, fun k => took_kept hv hrun hcore⟩
  rw [Valid, took_table hv hrun hcore]
  exact (took_held hv hrun hcore).forget

/-- The image of the directory is stored with the block in it, and the other inodes are as they
were. -/
theorem took_stored {img : Bytes} {n size : ℕ} (hd : DirOk s d) (hsame : Same img (s.inodes d))
    (he : r16 img 0x2A < 4)
    (hn : n < 2 ^ 16) (hino : t.ino = grownDir img n p size s.geo.bs) :
    Held (t.stored d) (Function.update t.table d t.ino) Nothing := by
  have hgeo := took_geo hcore
  have hplt := (free_of_freeRun hv hrun).1
  have hmap₁ : SameMap img (s.table d) := by rw [table_of_live hd.live]; exact hsame.sameMap
  have h₁ := (took_held hv hrun hcore).updateMap hmap₁
  have h₂ := h₁.addExtent (j := d) (l := n) rfl (by rw [Function.update_self]; exact he)
    ⟨Nat.one_pos, by omega⟩ (by rw [hgeo]; omega)
  rw [Function.update_self, Function.update_idem] at h₂
  have hmap₃ : SameMap t.ino (Function.update s.table d (addExtent img n 1 p) d) := by
    rw [Function.update_self, hino]
    exact sameMap_grownDir _ _ _ _ _
  have h₃ := h₂.updateMap hmap₃
  rw [Function.update_idem] at h₃
  rw [took_table hv hrun hcore]
  exact h₃.stored (hgeo.symm ▸ hd.isIno)

/-- **The directory has been given the block**, with the entry in it. -/
theorem DirOk.grown {img : Bytes} (hd : DirOk s d) (he : r16 (s.inodes d) 0x2A < 4)
    (hsame : Same img (s.inodes d)) (hchain : Chain D s.geo.bs [0]) (hent : direntAt D 0 = some e)
    (hino : t.ino = grownDir img (s.dirBlocks d) p (inodeSize (s.inodes d)) s.geo.bs) :
    Added s d e (t.stored d) := by
  have hg := hv.geo
  have hgeo := took_geo hcore
  have hlive := took_live hv hrun hcore
  have hle := hd.blocks_le hv
  have hbs := hg.bs_le
  have hbs₀ := hg.bs_pos
  have hblocks := hg.blocks_le
  obtain ⟨hplt, hpfree⟩ := free_of_freeRun hv hrun
  have hflat : Flat s.geo (s.inodes d) := hd.flat hv
  have hflat₀ : Flat s.geo img := hsame.sameMap.flat hflat
  have hentries : r16 img 0x2A < 4 := by rw [hsame.r16 (by omega)]; exact he
  have hmagic : r16 img 0x28 = kExtMagic := (hsame.r16 (by omega)).trans hd.magic
  generalize hn : s.dirBlocks d = n at hle hino
  have hnbs : n * s.geo.bs ≤ 32768 * 4096 := Nat.mul_le_mul (by omega) hbs
  have hsize : inodeSize (s.inodes d) = n * s.geo.bs := hn ▸ hd.size
  have hhigh : r32 img 0x6C = 0 := by
    by_contra hne
    rw [hsame.r32 (by omega)] at hne
    rw [inodeSize, if_pos hne] at hsize
    omega
  have hheld := took_stored hv hrun hcore hd hsame hentries (by omega) hino
  have hrep : Replaced t d (t.stored d) := .of_settled (took_unharmed hv hrun hcore).valid
    (hgeo.symm ▸ hd.isIno) ((hlive d).mpr hd.live) hheld (.refl _) (.refl _)
  have hdesc : (t.stored d).disk s.geo.descBlock = s.disk s.geo.descBlock := by
    have hstored :=
      stored_single (s := t) (hgeo.symm ▸ hg) (hgeo.symm ▸ hd.isIno) Geometry.Ok.desc_mem
    rw [hgeo] at hstored
    rw [hstored, took_disk hg hplt hcore hg.desc_ne_bbb
      (ne_of_not_meta (not_meta_of_freeRun hv hrun) Geometry.Ok.desc_mem)]
  generalize t.stored d = u at hrep hdesc
  have hugeo : u.geo = s.geo := hrep.geo.trans hgeo
  have himg : SameMap (u.inodes d) (addExtent img n 1 p) := by
    refine hrep.image.sameMap.trans ?_
    rw [hino]
    exact sameMap_grownDir _ _ _ _ _
  have hhead : ∀ a, a + 2 ≤ 0x2A → r16 (addExtent img n 1 p) a = r16 (s.inodes d) a := by
    intro a ha
    rw [← hsame.r16 (by omega)]
    exact r16_congr fun i hi => addExtent_apply img n 1 p (by omega) (by omega)
  have hmap : ∀ b, mapFlat (u.inodes d) b =
      (mapFlat (s.inodes d) b).or (if n ≤ b ∧ b < n + 1 then some (p + (b - n)) else none) := by
    intro b
    have hadd := hflat₀.addExtent (l := n) hentries ⟨Nat.one_pos,
      by omega⟩ (show p + 1 ≤ s.geo.blocks by omega)
      hv.blocks_lt
    rw [himg.mapFlat hadd, mapFlat_addExtent hflat₀ hmagic hentries
      (by omega) (by omega) (by omega), hsame.sameMap.mapFlat hflat]
  have hsizeu : inodeSize (u.inodes d) = (n + 1) * s.geo.bs := by
    rw [hrep.image.inodeSize, hino, inodeSize_grownDir hentries hhigh (by omega), hsize,
      Nat.succ_mul]
  have hnu : u.dirBlocks d = n + 1 := by
    rw [dirBlocks, hsizeu, hugeo, Geometry.blocksOf, u32,
      Nat.mod_eq_of_lt (by rw [Nat.succ_mul]; omega),
      Nat.add_sub_assoc hbs₀, Nat.add_comm, Nat.add_mul_div_right _ _ hbs₀,
      Nat.div_eq_of_lt (by omega)]
    omega
  -- The blocks it had are the ones it has, and they are as they were.
  have hold : ∀ b q, mapFlat (s.inodes d) b = some q → mapFlat (u.inodes d) b = some q ∧
      u.disk q = s.disk q := by
    intro b q hq
    have hqT : mapFlat (s.table d) b = some q := table_of_live hd.live ▸ hq
    refine ⟨by rw [hmap, hq]; rfl, ?_⟩
    have hqmeta := hv.mapFlat_not_meta hqT
    rw [hrep.disk q (hgeo.symm ▸ hqmeta)]
    refine took_disk hg hplt hcore (ne_of_not_meta hqmeta Geometry.Ok.bbb_mem).symm ?_
    rintro rfl
    obtain ⟨i, hi⟩ := covers_of_mapFlat (hv.flat d) hv.blocks_lt hqT
    exact hpfree (hv.own.own_used (d, i) q hi)
  have hself : u.disk p = D := by
    rw [hrep.disk p (hgeo.symm ▸ not_meta_of_freeRun hv hrun), took_self hcore]
  have hmore : OneMore s u d n p := by
    refine ⟨hugeo, hn, hnu, hold, fun b hb hq => ?_, ?_⟩
    · rw [hmap, hq, if_neg (by omega)]
      rfl
    · rw [hmap, hd.behind n hn.le, if_pos ⟨le_rfl, Nat.lt_succ_self n⟩, Nat.sub_self]
      rfl
  obtain ⟨hblk, hbehind⟩ := hmore.blocks hd (hself.symm ▸ hchain)
  refine ⟨hugeo, hrep.stack.trans (took_unharmed hv hrun hcore).stack,
    fun k => (hrep.live k).trans (hlive k),
    hdesc, hrep.valid, fun k hk hl => ?_, ?_, ⟨s.dirEntries d, [], (List.append_nil _).symm, ?_⟩⟩
  · exact (took_kept hv hrun hcore hl).trans (hrep.kept k hk ((hlive k).mpr hl))
      (table_of_live hl ▸ hv.flat k)
  · refine ⟨hugeo ▸ hd.isIno, (hrep.live d).mpr ((hlive d).mpr hd.live), ?_, ?_, ?_, hblk, hbehind⟩
    · rw [IsDir, himg.mode, hhead 0 (by omega)]
      exact hd.dir
    · rw [himg.magic, hhead 0x28 (by omega)]
      exact hd.magic
    · rw [hsizeu, hnu, hugeo]
  · exact hmore.dirEntries (hself.symm ▸ hchain) (hself.symm ▸ hent)

end Took

/-- A record for a name fits a block. -/
theorem DirentName.fits (h : DirentName name) (hg : s.geo.Ok) :
    direntUsed name.length ≤ s.geo.bs := by
  have hshort := h.short
  have hle : direntUsed name.length ≤ 1024 := by
    rw [direntUsed]
    omega
  rcases hg.bs with hbs | hbs | hbs <;> omega

theorem setDisk_setDisk (s : Fs) (b : ℕ) (d d' : Bytes) :
    (s.setDisk b d).setDisk b d' = s.setDisk b d' := by
  rw [setDisk, setDisk, setDisk, Function.update_idem]

/-- A block has been taken, with the entry in it, and the image of the directory has it. -/
structure Outgrown (s : Fs) (d p size nblk : ℕ) (e : Dirent) (D img : Bytes) (t : Fs) : Prop where
  /-- The block has been taken and written. -/
  core : t.core = ((s.taken p 1).setDisk p D).core
  /-- The image was the directory's. -/
  same : Same img (s.inodes d)
  /-- One record fills the block. -/
  chain : Chain D s.geo.bs [0]
  /-- It is the entry. -/
  entry : direntAt D 0 = some e
  /-- The image has the block. -/
  ino : t.ino = grownDir img nblk p size s.geo.bs

/-- **The end of `dir_add_entry`**, for a directory of any layout. -/
theorem wp_growDir_of {size nblk : ℕ} {Q : Unit → Fs → Prop} {E : Fs → Prop} (hg : s.geo.Ok)
    (hi : s.geo.IsIno d) (hdir : IsDir (s.inodes d))
    (hfree : ∀ p, s.freeRun 1 = some p → p < s.geo.blocks ∧ ¬s.geo.IsMeta p)
    (hname : DirentName name)
    (hino : 0 < ino ∧ ino < 2 ^ 32) (htype : type < 256) (hcore : t.core = s.core)
    (hQ : ∀ p D img t, s.freeRun 1 = some p → r16 (s.inodes d) 0x2A < 4 →
      Outgrown s d p size nblk ⟨ino, name, type⟩ D img t → Q ⟨⟩ (t.stored d))
    (hfull : ∀ p D u, s.freeRun 1 = some p → ¬r16 (s.inodes d) 0x2A < 4 →
      u.core = ((s.taken p 1).setDisk p D).core → E u)
    (hnone : s.freeRun 1 = none → ∀ u, u.core = s.core → E u) :
    wp (growDir d name ino type size nblk) Q E t := by
  have hbs := hg.bs_le
  have hgeo := core_geo hcore
  rw [growDir, wp_bind]
  refine wp_allocBlocks (hgeo ▸ hg) (fun p hp => ?_) fun hn => ?_
  · have hrun : s.freeRun 1 = some p := (core_freeRun hcore 1).symm.trans hp
    obtain ⟨hplt, hmeta⟩ := hfree p hrun
    have htaken : (t.taken p 1).core = (s.taken p 1).core :=
      core_taken hcore ((Nat.succ_le_of_lt hplt).trans hg.blocks)
    have hplt' : p < (t.taken p 1).geo.blocks := by
      change p < t.geo.blocks
      rw [hgeo]
      exact hplt
    rw [wp_bind, wp_setWriteB2]
    refine ⟨fun _ => ?_, fun hn => absurd hplt' hn⟩
    generalize w8 (w16 (w32 _ 0 0) 4 _) 6 0 = b
    rw [putBlock_eq]
    generalize hD : memcpy _ 0 b 0 _ = D
    have hcore₁ : (((t.taken p 1).setB2 b).setDisk p D).core = ((s.taken p 1).setDisk p D).core :=
      core_setDisk htaken p D
    generalize ((t.taken p 1).setB2 b).setDisk p D = t₁ at hcore₁ ⊢
    have hgeo₁ := took_geo hcore₁
    have hi₁ : t₁.geo.IsIno d := hgeo₁.symm ▸ hi
    have hsame := loaded_ino (hgeo₁.symm ▸ hg) hi₁
    rw [took_inodes hg hplt hmeta hcore₁] at hsame
    rw [wp_bind, wp_loadInode (hgeo₁.symm ▸ hg)]
    refine ⟨fun _ => ?_, fun hn => absurd hi₁ hn⟩
    have hcore₂ : (t₁.loaded d).core = ((s.taken p 1).setDisk p D).core := Eq.trans rfl hcore₁
    generalize t₁.loaded d = t₂ at hsame hcore₂ ⊢
    have hgeo₂ := took_geo hcore₂
    rw [wp_bind, wp_get, wp_bind, wp_guard]
    refine ⟨fun _ => ?_, fun hn => absurd (hsame.sameMap.isDir.mpr hdir) hn⟩
    rw [wp_bind, wp_guard, hsame.r16 (by omega)]
    refine ⟨fun he => ?_, fun hn => hfull p D t₂ hrun hn hcore₂⟩
    rw [wp_bind, wp_modify, hgeo₂]
    generalize hgrown : t₂.setIno _ = t₃
    have hino₃ : t₃.ino = grownDir t₂.ino nblk p size s.geo.bs := by
      rw [← hgrown, setIno_ino]
      rfl
    have hcore₃ : t₃.core = ((s.taken p 1).setDisk p D).core := by
      rw [← hgrown]
      exact hcore₂
    have hgeo₃ := took_geo hcore₃
    rw [wp_bind, wp_setWriteB2, hgeo₃]
    refine ⟨fun _ => ?_, fun hn => absurd hplt hn⟩
    -- The record goes into the block in place of the empty one.
    generalize hB : putDirent t₃.b2 0 ino s.geo.bs name type = B
    rw [putBlock_eq]
    have hchain : Chain B s.geo.bs [0] := .only (by omega) hname (hname.fits hg) hB.symm
    have hent : direntAt B 0 = some ⟨ino, name, type⟩ := by
      rw [← hB]
      exact direntAt_putDirent hino hname htype
    generalize hD' : memcpy _ 0 B 0 _ = D'
    have hsame' : ∀ a < s.geo.bs, D' a = B a := by
      intro a ha
      rw [← hD', setB2_geo, hgeo₃, memcpy_zero_of_lt ha, Nat.zero_add]
    have hcore₄ : ((t₃.setB2 B).setDisk p D').core = ((s.taken p 1).setDisk p D').core := by
      refine (core_setDisk (Eq.trans rfl hcore₃) p D').trans ?_
      rw [setDisk_setDisk]
    have hent' : direntAt D' 0 = some ⟨ino, name, type⟩ := by
      have hone := hchain.filterMap_congr hsame'
      rw [List.filterMap_cons, List.filterMap_cons, hent] at hone
      cases hd' : direntAt D' 0 with
      | none => rw [hd'] at hone; exact absurd hone (by simp)
      | some e => rw [hd'] at hone; exact congrArg some (List.cons.inj hone).1
    have hgeo₄ := took_geo hcore₄
    rw [wp_storeInode (hgeo₄.symm ▸ hg) (hgeo₄.symm ▸ hi)]
    exact hQ p D' t₂.ino _ hrun he ⟨hcore₄, hsame, hchain.congr hsame', hent', hino₃⟩
  · have hrun := (core_freeRun hcore 1).symm.trans hn
    exact ⟨hnone hrun t hcore, hnone hrun _ (Eq.trans rfl hcore)⟩

theorem DirOk.wp_growDir (hd : DirOk s d) (hv : Valid s) (hname : DirentName name)
    (hino : 0 < ino ∧ ino < 2 ^ 32) (htype : type < 256) (hcore : t.core = s.core) :
    wp (growDir d name ino type (inodeSize (s.inodes d)) (s.dirBlocks d))
      (fun _ u => (r16 (s.inodes d) 0x2A < 4 ∧ s.freeRun 1 ≠ none) ∧ Added s d ⟨ino, name, type⟩ u)
      (fun u => ¬(r16 (s.inodes d) 0x2A < 4 ∧ s.freeRun 1 ≠ none) ∧ Unharmed s u) t := by
  refine wp_growDir_of hv.geo hd.isIno hd.dir
    (fun p hp => ⟨(free_of_freeRun hv hp).1, not_meta_of_freeRun hv hp⟩) hname hino htype hcore
    (fun p D img t hrun he h => ?_) (fun p D u hrun hn hcore' => ?_) fun hnone u hu => ?_
  · have hsome : s.freeRun 1 ≠ none := by rw [hrun]; exact Option.some_ne_none p
    exact ⟨⟨he, hsome⟩, hd.grown hv hrun h.core he h.same h.chain h.entry h.ino⟩
  · exact ⟨fun h => hn h.1, took_unharmed hv hrun hcore'⟩
  · exact ⟨fun h => h.2 hnone, hv.unharmed hu⟩

/-- **`dir_add_entry`** adds the entry if there is room for it. -/
theorem DirOk.wp_dirAddEntry (hd : DirOk s d) (hv : Valid s) (hname : DirentName name)
    (hino : 0 < ino ∧ ino < 2 ^ 32) (htype : type < 256) (hcore : t.core = s.core) :
    wp (dirAddEntry d name ino type) (fun _ u => s.HasRoom d name ∧ Added s d ⟨ino, name, type⟩ u)
      (fun u => ¬s.HasRoom d name ∧ Unharmed s u) t := by
  have hg := hv.geo
  have hgeo := core_geo hcore
  have hi : t.geo.IsIno d := hgeo.symm ▸ hd.isIno
  have hsame := loaded_ino (hgeo.symm ▸ hg) hi
  rw [core_inodes hcore] at hsame
  rw [dirAddEntry, wp_bind, wp_get, wp_bind, wp_guard, hgeo]
  refine ⟨fun _ => ?_, fun hn => absurd (hname.fits hg) hn⟩
  rw [wp_bind, wp_loadInode (hgeo.symm ▸ hg)]
  refine ⟨fun _ => ?_, fun hn => absurd hi hn⟩
  have hcore₁ : (t.loaded d).core = s.core := Eq.trans rfl hcore
  generalize t.loaded d = t₁ at hsame hcore₁ ⊢
  rw [wp_bind, wp_get, wp_bind, wp_guard, hsame.inodeSize, core_geo hcore₁]
  refine ⟨fun _ => ?_, fun hn => absurd (hsame.sameMap.isDir.mpr hd.dir) hn⟩
  rw [wp_bind]
  refine wp_mono (hd.wp_addInBlocks hv hname hino htype (fun b => List.mem_range.mp) hcore₁) ?_
    fun _ => False.elim
  rintro done u ⟨hdone, hu⟩
  simp only [List.mem_range] at hdone
  cases done with
  | true => exact ⟨.inl (hdone.mp rfl), hu⟩
  | false =>
    have hnone : ¬∃ b < s.dirBlocks d, s.roomAt d (direntUsed name.length) b = true :=
      fun h => Bool.noConfusion (hdone.mpr h)
    refine wp_mono (hd.wp_growDir hv hname hino htype hu) ?_ ?_
    · exact fun _ v hv' => ⟨.inr hv'.1, hv'.2⟩
    · exact fun v hv' => ⟨fun h => h.elim hnone hv'.1, hv'.2⟩

/-- Only a directory gets an entry. -/
theorem wp_dirAddEntry_not (hg : s.geo.Ok) (hn : ¬(s.geo.IsIno d ∧ IsDir (s.inodes d))) :
    wp (dirAddEntry d name ino type) (fun _ _ => False) (fun u => u.core = s.core) s := by
  rw [dirAddEntry, wp_bind, wp_get, wp_bind, wp_guard]
  refine ⟨fun _ => ?_, fun _ => rfl⟩
  rw [wp_bind, wp_loadInode hg]
  refine ⟨fun hi => ?_, fun _ => rfl⟩
  rw [wp_bind, wp_get, wp_bind, wp_guard]
  exact ⟨fun hdir => absurd ⟨hi, (loaded_ino hg hi).sameMap.isDir.mp hdir⟩ hn, fun _ => rfl⟩

theorem dirOk_small : DirOk small kRootIno where
  isIno := by decide
  live := by decide +kernel
  dir := by decide +kernel
  magic := by decide +kernel
  size := by decide +kernel
  blocks := by
    have hn : small.dirBlocks kRootIno = 1 := by decide +kernel
    intro b hb
    obtain rfl : b = 0 := by omega
    exact ⟨7, [0, 12], by decide +kernel, by decide +kernel⟩
  behind _ := mapFlat_behind (by decide +kernel)

theorem dirOk_filed : DirOk filed kRootIno where
  isIno := by decide
  live := by decide +kernel
  dir := by decide +kernel
  magic := by decide +kernel
  size := by decide +kernel
  blocks := by
    have hn : filed.dirBlocks kRootIno = 1 := by decide +kernel
    intro b hb
    obtain rfl : b = 0 := by omega
    exact ⟨7, [0, 12, 24], by decide +kernel, by decide +kernel⟩
  behind _ := mapFlat_behind (by decide +kernel)

end Fs

end Aurisys
