import Aurisys.Fs.Entries
import Aurisys.Fs.Write

/-!
# A `write_at` that succeeds replaces a part of the file

A file whose blocks are all there has contents, a list of bytes, and any range that is read is a
part of it. In these terms a call of `write_at` that begins inside the file, or at its end, puts the
bytes of the buffer where they belong, and the list gets longer where they go past its end.

Nothing else is touched: what is read from the other files stays, and so does what `list_dir` lists.
For the latter a directory need not be in order. What a name that goes past the end of a block is
read as is in `g_b2`, and `write_at` does not use that buffer.

## Main definitions

* `splice` — a part of a list is replaced
* `contents`, `Whole`

## Main results

* `readBytes_of_whole` — any range is read from the contents
* `Kept.entries_of_b2` — what is listed stays
* `writeAt_splice`
-/

namespace Aurisys

open Bytes Fallible

namespace Fs

/-- The list with the data in it from `off` on. -/
def splice (old : List UInt8) (off : ℕ) (data : List UInt8) : List UInt8 :=
  old.take off ++ data ++ old.drop (off + data.length)

theorem getElem?_splice {old data : List UInt8} {off : ℕ} (h : off ≤ old.length) (q : ℕ) :
    (splice old off data)[q]? =
      if off ≤ q ∧ q < off + data.length then data[q - off]? else old[q]? := by
  have hlen : (old.take off).length = off := by simp [h]
  rw [splice, List.append_assoc, List.getElem?_append, hlen]
  by_cases hlt : q < off
  · rw [if_pos hlt, if_neg (by omega), List.getElem?_take_of_lt hlt]
  · rw [if_neg hlt, List.getElem?_append]
    by_cases hin : q - off < data.length
    · rw [if_pos hin, if_pos (by omega)]
    · rw [if_neg hin, if_neg (by omega), List.getElem?_drop]
      congr 1
      omega

/-- What `read` copies when it is asked for the whole file. -/
def contents (s : Fs) (ino : ℕ) : List UInt8 := s.readBytes ino (inodeSize (s.inodes ino)) 0

/-- No byte of the file is missing. -/
def Full (s : Fs) (ino : ℕ) : Prop :=
  ∀ q < inodeSize (s.inodes ino), s.byteAt (s.inodes ino) q ≠ none

/-- The blocks of the file are exactly those that its size takes. -/
def Whole (s : Fs) (ino : ℕ) : Prop :=
  ∀ b, mapFlat (s.inodes ino) b ≠ none ↔ b * s.geo.bs < inodeSize (s.inodes ino)

variable {s u t t' : Fs} {buf : Bytes} {ino d off len n o q : ℕ}

theorem Whole.full (h : Whole s ino) : Full s ino := by
  intro q hq hn
  rw [Fs.byteAt, Option.map_eq_none_iff] at hn
  refine (h (q / s.geo.bs)).mpr ?_ hn
  have := Nat.div_mul_le_self q s.geo.bs
  omega

section

variable (hg : s.geo.Ok) (hi : s.geo.IsIno ino) (hf : Flat s.geo (s.inodes ino))
  (hfile : IsFile (s.inodes ino)) (hall : Full s ino)

include hg hi hf hfile hall

/-- Where no byte is missing, all that are asked for are copied. -/
theorem readBytes_of_all (n o : ℕ) : s.readBytes ino n o =
    (List.range (min n (inodeSize (s.inodes ino) - o))).map
      fun i => (s.byteAt (s.inodes ino) (o + i)).getD 0 := by
  rw [readBytes_eq hg hi hf, if_pos hfile, ← upTo_some]
  congr 1
  refine List.map_congr_left fun i hi => ?_
  have hi := List.mem_range.mp hi
  obtain ⟨c, hc⟩ := Option.ne_none_iff_exists'.mp (hall (o + i) (by omega))
  rw [hc]
  rfl

theorem getElem?_contents (q : ℕ) : (s.contents ino)[q]? =
    if q < inodeSize (s.inodes ino) then s.byteAt (s.inodes ino) q else none := by
  rw [contents, readBytes_of_all hg hi hf hfile hall, Nat.sub_zero, min_self, List.getElem?_map]
  by_cases hq : q < inodeSize (s.inodes ino)
  · obtain ⟨c, hc⟩ := Option.ne_none_iff_exists'.mp (hall q hq)
    rw [if_pos hq, List.getElem?_range hq, Option.map_some, Nat.zero_add, hc]
    rfl
  · rw [if_neg hq, List.getElem?_eq_none (by simpa using hq)]
    rfl

theorem length_contents : (s.contents ino).length = inodeSize (s.inodes ino) := by
  rw [contents, readBytes_of_all hg hi hf hfile hall, List.length_map, List.length_range,
    Nat.sub_zero,
    min_self]

/-- **Any range** is a part of the contents. -/
theorem readBytes_of_whole (n o : ℕ) : s.readBytes ino n o = ((s.contents ino).drop o).take n := by
  refine List.ext_getElem? fun i => ?_
  rw [readBytes_of_all hg hi hf hfile hall, List.getElem?_map, List.getElem?_take,
    List.getElem?_drop,
    getElem?_contents hg hi hf hfile hall]
  by_cases hlt : i < min n (inodeSize (s.inodes ino) - o)
  · obtain ⟨c, hc⟩ := Option.ne_none_iff_exists'.mp (hall (o + i) (by omega))
    rw [List.getElem?_range hlt, Option.map_some, if_pos (by omega), if_pos (by omega), hc]
    rfl
  · rw [List.getElem?_eq_none (by rw [List.length_range]; omega), Option.map_none]
    by_cases hn : i < n
    · rw [if_pos hn, if_neg (by omega)]
    · rw [if_neg hn]

end

/-! ## The file itself -/

section

variable (h : Written s ino buf off len u) (hv : Valid s) (hi : s.geo.IsIno ino) (hl : s.Live ino)
  (hfile : IsFile (s.inodes ino)) (hfull : Full s ino) (hoff : off ≤ inodeSize (s.inodes ino))
  (hlt : off + len < 2 ^ 32)

include h hlt

theorem Written.size_eq : inodeSize (u.inodes ino) = max (inodeSize (s.inodes ino))
    (off + len) := by
  rw [h.size, u32, Nat.mod_eq_of_lt hlt]

/-- A byte is the one of the buffer or the one it was. -/
theorem Written.byteAt_eq (hq : s.byteAt (s.inodes ino) q ≠ none ∨ off ≤ q ∧ q < off + len) :
    u.byteAt (u.inodes ino) q =
      if off ≤ q ∧ q < off + len then some (buf (q - off)) else s.byteAt (s.inodes ino) q := by
  have hplace : ∀ i < len, place off i = off + i := fun i hi => Nat.mod_eq_of_lt (by omega)
  by_cases hin : off ≤ q ∧ q < off + len
  · have hfresh := h.fresh (q - off) (by omega)
    rw [hplace _ (by omega), Nat.add_sub_cancel' hin.1] at hfresh
    rw [if_pos hin, hfresh]
  · obtain ⟨c, hc⟩ := Option.ne_none_iff_exists'.mp (hq.resolve_right hin)
    rw [if_neg hin, hc]
    refine h.old q c (fun i hi heq => hin ?_) hc
    rw [hplace i hi] at heq
    omega

include hfull hoff

theorem Written.full : Full u ino := by
  intro q hq
  rw [h.size_eq hlt] at hq
  by_cases hin : off ≤ q ∧ q < off + len
  · rw [h.byteAt_eq hlt (.inr hin), if_pos hin]
    exact Option.some_ne_none _
  · have hsome := hfull q (by omega)
    rw [h.byteAt_eq hlt (.inl hsome), if_neg hin]
    exact hsome

include hv hi hl hfile

/-- **The contents afterwards.** -/
theorem Written.contents_eq :
    u.contents ino = splice (s.contents ino) off ((List.range len).map buf) := by
  have hflat : Flat s.geo (s.inodes ino) := table_of_live hl ▸ hv.flat ino
  have hlu := (h.live ino).mpr hl
  have hflatu : Flat u.geo (u.inodes ino) := table_of_live hlu ▸ h.valid.flat ino
  have hlen := length_contents hv.geo hi hflat hfile hfull
  refine List.ext_getElem? fun q => ?_
  rw [getElem?_splice (hlen ▸ hoff), getElem?_contents hv.geo hi hflat hfile hfull,
    getElem?_contents h.valid.geo (h.geo ▸ hi) hflatu h.file
      (h.full hfull hoff hlt), h.size_eq hlt, List.length_map, List.length_range]
  by_cases hin : off ≤ q ∧ q < off + len
  · rw [if_pos hin, if_pos (by omega), h.byteAt_eq hlt (.inr hin), if_pos hin, List.getElem?_map,
      List.getElem?_range (by omega)]
    rfl
  · rw [if_neg hin]
    by_cases hq : q < inodeSize (s.inodes ino)
    · rw [if_pos hq, if_pos (by omega), h.byteAt_eq hlt (.inl (hfull q hq)), if_neg hin]
    · rw [if_neg hq, if_neg (by omega)]

end

/-! ## The directories -/

/-- **What is listed stays**, also where a name goes past the end of a block. -/
theorem Kept.entries_of_b2 (hk : Kept s u d) (hv : Valid s) (hv' : Valid u) (hi : s.geo.IsIno d)
    (hl : s.Live d) (hl' : u.Live d) (hdir : IsDir (s.inodes d))
    (hb2 : ∀ a, s.geo.bs ≤ a → u.b2 a = s.b2 a) : u.entries d = s.entries d := by
  have hf : Flat s.geo (s.inodes d) := table_of_live hl ▸ hv.flat d
  have hblock : u.blockListing d = s.blockListing d := by
    funext b
    rw [blockListing, blockListing, hk.mapFlat hf, hk.geo]
    cases hp : Fs.mapFlat (s.inodes d) b with
    | none => rw [Option.map_none, Option.map_none]
    | some p =>
      have hbuf : memcpy u.b2 0 (u.disk p) 0 s.geo.bs = memcpy s.b2 0 (s.disk p) 0 s.geo.bs := by
        rw [hk.disk hv.geo hf hp]
        funext a
        by_cases ha : a < s.geo.bs
        · simp only [memcpy, Nat.zero_le, Nat.zero_add, ha, and_self, if_true]
        · rw [memcpy_of_lt_or_ge (by omega), memcpy_of_lt_or_ge (by omega), hb2 a (by omega)]
      rw [Option.map_some, Option.map_some, hbuf]
  have hlisting : ∀ bl, u.listing d bl = s.listing d bl := by
    intro bl
    induction bl with
    | nil => rfl
    | cons b bl ih => rw [listing, listing, hblock, ih]
  rw [entries_eq hv' (hk.isIno hi) hl' (hk.image.sameMap.isDir.mpr hdir), entries_eq hv hi hl hdir,
    hk.dirBlocks, hlisting]

namespace LeavesB2

theorem allocBlocks (n : ℕ) : LeavesB2 (allocBlocks n) :=
  bind get fun _ => bind guard fun _ => bind (readB1 _) fun _ => bind get fun _ =>
    bind (ofOption _) fun _ => bind (setB1 _) fun _ => bind (writeB1 _) fun _ =>
      bind (setHint _) fun _ => pure _

theorem commitCounts (ub ui ud : ℤ) : LeavesB2 (commitCounts ub ui ud) :=
  ite (pure _) <| bind get fun _ => bind (readB1 _) fun _ => bind get fun _ => bind guard fun _ =>
    bind (setB1 _) fun _ => bind (writeB1 _) fun _ => settle ub ui

theorem writeAtLoop (buf : Bytes) (off len oldSize fuel done total : ℕ) :
    LeavesB2 (writeAtLoop buf off len oldSize fuel done total) := by
  induction fuel generalizing done total with
  | zero => exact failure
  | succ fuel ih =>
    refine ite (pure _) (bind get fun _ => bind (attempt (mapLblock _)) ?_)
    rintro (_ | phys)
    · exact bind guard fun _ => bind get fun _ => bind guard fun _ => bind guard fun _ =>
        bind (allocBlocks _) fun _ => bind (setIno _) fun _ => ih _ _
    · exact bind (readB1 _) fun _ => bind (setB1 _) fun _ => bind (writeB1 _) fun _ => ih _ _

theorem writeTail (ino : ℕ) (buf : Bytes) (off len : ℕ) : LeavesB2 (writeTail ino buf off len) :=
  bind get fun _ => bind (writeAtLoop _ _ _ _ _ _ _) fun _ => bind (setIno _) fun _ =>
    bind (storeInode _) fun _ => commitCounts _ _ _

theorem fillGap {write : Bytes → ℕ → ℕ → Act Unit} (hw : ∀ b o n, LeavesB2 (write b o n))
    (off fuel at_ : ℕ) : LeavesB2 (fillGap write off fuel at_) := by
  induction fuel generalizing at_ with
  | zero => exact failure
  | succ fuel ih =>
    exact ite (pure _) (bind get fun _ => bind (hw _ _ _) fun _ => ih _)

theorem writeAtBody {write : Bytes → ℕ → ℕ → Act Unit} (hw : ∀ b o n, LeavesB2 (write b o n))
    (ino : ℕ) (buf : Bytes) (off len : ℕ) : LeavesB2 (writeAtBody write ino buf off len) := by
  rw [writeAtBody_eq]
  exact bind (loadInode _) fun _ => bind get fun _ => bind guard fun _ => bind guard fun _ =>
    bind (fillGap hw _ _ _) fun _ => writeTail _ _ _ _

theorem writeAt (ino : ℕ) (buf : Bytes) (off len : ℕ) : LeavesB2 (writeAt ino buf off len) :=
  writeAtBody (fun _ _ _ => writeAtBody (fun _ _ _ => failure) _ _ _ _) _ _ _ _

end LeavesB2

/-! ## The call -/

/-- **A `write_at` that succeeds** replaces a part of the contents, and nothing else. -/
theorem writeAt_splice (hv : Valid s) (hi : s.geo.IsIno ino) (hl : s.Live ino)
    (hfile : IsFile (s.inodes ino)) (hmagic : r16 (s.inodes ino) 0x28 = kExtMagic)
    (hwhole : Whole s ino) (hoff : off ≤ inodeSize (s.inodes ino)) (hlt : off + len < 2 ^ 32)
    (h : exec (writeAt ino buf off len) s = (some (), u)) :
    inodeSize (u.inodes ino) = max (inodeSize (s.inodes ino)) (off + len) ∧
      (∀ n o, u.readBytes ino n o =
        ((splice (s.contents ino) off ((List.range len).map buf)).drop o).take n) ∧
      (∀ k, s.geo.IsIno k → s.Live k → k ≠ ino → ∀ n o, u.readBytes k n o = s.readBytes k n o) ∧
      ∀ d, s.geo.IsIno d → s.Live d → IsDir (s.inodes d) → u.entries d = s.entries d := by
  have hwp : wp (writeAt ino buf off len) (fun _ u => Written s ino buf off len u)
      (fun u => Leaves s ino buf off len u ∧ GivenUp s ino off len u) s :=
    wp_writeAt_inside hv hi hl hfile hmagic (by omega) (by omega) hoff
  have hw := wp_of_some hwp h
  have hflat : ∀ k, s.Live k → Flat s.geo (s.inodes k) := fun k hk => table_of_live hk ▸ hv.flat k
  have hlu := (hw.live ino).mpr hl
  have hb2 : u.b2 = s.b2 :=
    wp_of_some (x := writeAt ino buf off len) (LeavesB2.writeAt ino buf off len s.b2 s rfl) h
  refine ⟨hw.size_eq hlt, fun n o => ?_, fun k hk hlk hne n o => ?_, fun d hd hld hdir => ?_⟩
  · rw [← hw.contents_eq hv hi hl hfile hwhole.full hoff hlt]
    exact readBytes_of_whole hw.valid.geo (hw.geo ▸ hi)
      (table_of_live hlu ▸ hw.valid.flat ino) hw.file
      (hw.full hwhole.full hoff hlt) n o
  · exact (hw.kept k hne hlk).readBytes hv.geo hk (hflat k hlk) n o
  · have hne : d ≠ ino := by
      rintro rfl
      rw [IsFile] at hfile
      rw [IsDir, hfile] at hdir
      exact absurd hdir (by decide)
    exact (hw.kept d hne hld).entries_of_b2 hv hw.valid hd hld ((hw.live d).mpr hld) hdir
      fun a _ => by rw [hb2]

/-- The file has one block, number 8. -/
theorem whole_filed : Whole filed 12 := by
  have hlive : filed.Live 12 := by decide +kernel
  have hflat : Flat filed.geo (filed.inodes 12) := table_of_live hlive ▸ valid_filed.flat 12
  have hsize : inodeSize (filed.inodes 12) = 3 := by decide +kernel
  have hentries : r16 (filed.inodes 12) 0x2A = 1 := by decide +kernel
  have hext : extentAt (filed.inodes 12) 0 = (8, 1) := by decide +kernel
  have hstart : r32 (filed.inodes 12) 0x34 = 0 := by decide +kernel
  have hfirst : mapFlat (filed.inodes 12) 0 = some 8 := by decide +kernel
  have hbs : filed.geo.bs = 1024 := rfl
  intro b
  rw [hsize, hbs]
  constructor
  · intro hb
    obtain ⟨p, hp⟩ := Option.ne_none_iff_exists'.mp hb
    obtain ⟨i, ⟨hi, hge, hlt⟩, heq⟩ := mapFlat_spec hflat (by decide) hp
    obtain rfl : i = 0 := by omega
    rw [hext] at hge hlt heq
    rw [Nat.zero_mul, Nat.add_zero, hstart] at heq
    dsimp only at hge hlt heq
    omega
  · intro hb
    obtain rfl : b = 0 := by omega
    rw [hfirst]
    exact Option.some_ne_none 8

/-- Four bytes are written over the last two of three. -/
theorem writeAt_filed : (exec (writeAt 12 (fun _ => 97) 1 4) filed).2.readBytes 12 9 0 =
    ((splice (filed.contents 12) 1 ((List.range 4).map fun _ => 97)).drop 0).take 9 :=
  have hrun : (exec (writeAt 12 (fun _ => 97) 1 4) filed).1 = some () := by decide +kernel
  (writeAt_splice valid_filed (by decide) (by decide +kernel) (by decide +kernel)
    (by decide +kernel)
    whole_filed (by decide +kernel) (by decide) (exec_eq hrun)).2.1 9 0

end Fs

end Aurisys
