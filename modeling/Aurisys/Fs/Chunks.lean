import Aurisys.Fs.Mapping

/-!
# Reading a file piece by piece

Each call of `read` loads the inode again and finds its blocks again. What it finds depends on what
is on the disk and, where a tree of extents is malformed, on what is behind the ends of the buffers;
a read changes neither. So every call sees the same bytes, and the calls of a chain, each from where
the one in front of it ended, see one part of the file after the other.

This holds for any inode: with extents or with pointers, in order or not, with holes or without.

## Main definitions

* `Quiet` — the states read the same
* `bytesOf` — the bytes in front of the first one that is not there
* `rangeOf` — what one call copies
* `readUntil` — one call after the other, until one returns 0

## Main results

* `wp_read_quiet`
* `readUntil_eq`
-/

namespace Aurisys

open Bytes Fallible

namespace Fs

/-- The states know the same, and so do the buffers behind the end of a block and of an inode. -/
structure Quiet (s t : Fs) : Prop where
  core : t.core = s.core
  b1 : ∀ a, s.geo.bs ≤ a → t.b1 a = s.b1 a
  ino : ∀ a, s.geo.inodeSize ≤ a → t.ino a = s.ino a

/-- What a block of the file is read as. -/
def blockBytes (s : Fs) (img : Bytes) (b : ℕ) : Option Bytes :=
  (s.blockOf img b).bind fun p => if p < s.geo.blocks then some (s.disk p) else none

/-- What a file has to read: the bytes up to its size, and not behind one that is not there. -/
def bytesOf (s : Fs) (ino : ℕ) : List UInt8 :=
  let img := (s.loaded ino).ino
  if s.geo.IsIno ino ∧ IsFile img then
    upTo ((List.range (inodeSize img)).map (byteIn (s.blockBytes img) s.geo.bs))
  else []

/-- One call of `read` after the other, until one returns 0. -/
def readUntil (ino : ℕ) (lens : ℕ → ℕ) : ℕ → ℕ → List UInt8 → Act (List UInt8)
  | 0, _, _ => failure
  | fuel + 1, k, acc => do
    let out ← Fallible.attempt (read ino (lens k) acc.length)
    if out.getD [] = [] then return acc
    else readUntil ino lens fuel (k + 1) (acc ++ out.getD [])

variable {s t : Fs} {img : Bytes} {ino len off b : ℕ}

/-! ## One call -/

theorem Quiet.refl (s : Fs) : Quiet s s := ⟨rfl, fun _ _ => rfl, fun _ _ => rfl⟩

theorem Quiet.trans {u : Fs} (h : Quiet s t) (h' : Quiet t u) : Quiet s u := by
  have hgeo := core_geo h.core
  refine ⟨h'.core.trans h.core, fun a ha => ?_, fun a ha => ?_⟩
  · exact (h'.b1 a (hgeo ▸ ha)).trans (h.b1 a ha)
  · exact (h'.ino a (hgeo ▸ ha)).trans (h.ino a ha)

/-- The same image is loaded. -/
theorem Quiet.loaded (h : Quiet s t) (hg : s.geo.Ok) (ino : ℕ) :
    Near s (s.loaded ino).ino (t.loaded ino) := by
  have hgeo := core_geo h.core
  refine ⟨Eq.trans rfl h.core, ?_, fun a ha => ?_⟩
  · have hoff := hg.slotOff_le ino
    funext a
    rw [Fs.loaded, Fs.loaded, setIno_ino, setIno_ino, hgeo, core_disk h.core]
    by_cases ha : a < s.geo.inodeSize
    · rw [memcpy_zero_of_lt ha, memcpy_zero_of_lt ha, memcpy_zero_of_lt (by omega),
        memcpy_zero_of_lt (by omega)]
    · rw [memcpy_of_lt_or_ge (by omega), memcpy_of_lt_or_ge (by omega), h.ino a (by omega)]
  · rw [Fs.loaded, setIno_b1, setB1_b1, hgeo, memcpy_of_lt_or_ge (by omega), h.b1 a ha]

/-- While the image is loaded the state is a quiet one. -/
theorem Quiet.of_near (h : Near s (s.loaded ino).ino t) : Quiet s t := by
  refine ⟨h.core, h.b1, fun a ha => ?_⟩
  rw [h.ino, Fs.loaded, setIno_ino, memcpy_of_lt_or_ge (by omega)]

/-- A block is read, and nothing else changes. -/
theorem Near.readBlock (h : Near s img t) (b : ℕ) :
    wp (do
        let phys ← mapLblock b
        Fs.readB1 phys)
      (fun _ t' => Near s img t' ∧ ∃ x, s.blockBytes img b = some x ∧ ∀ a < s.geo.bs, t'.b1 a = x a)
      (fun t' => Near s img t' ∧ s.blockBytes img b = none) t := by
  rw [wp_bind]
  refine wp_mono (wp_mapLblock_blockOf h) ?_ ?_
  · rintro p t₁ ⟨hp, h₁⟩
    refine wp_mono h₁.readB1 ?_ ?_
    · rintro _ t₂ ⟨hlt, h₂, hb1⟩
      refine ⟨h₂, s.disk p, by rw [blockBytes, hp, Option.bind_some, if_pos hlt], fun a ha => ?_⟩
      rw [hb1, Fs.inB1, memcpy_zero_of_lt ha, Nat.zero_add]
    · rintro t₂ ⟨hn, h₂⟩
      exact ⟨h₂, by rw [blockBytes, hp, Option.bind_some, if_neg hn]⟩
  · rintro t₁ ⟨hnone, h₁⟩
    exact ⟨h₁, by rw [blockBytes, hnone]; rfl⟩

theorem upTo_take (l : List (Option UInt8)) (n : ℕ) : upTo (l.take n) = (upTo l).take n := by
  induction l generalizing n with
  | nil => simp [upTo]
  | cons c l ih =>
    cases n with
    | zero =>
      rw [List.take_zero, List.take_zero]
      rfl
    | succ n =>
      cases c with
      | none => rfl
      | some c => exact congrArg (c :: ·) (ih n)

/-- What is in front of the first that is not there can be left out. -/
theorem upTo_drop {l : List (Option UInt8)} {k : ℕ} (h : k ≤ (upTo l).length) :
    upTo (l.drop k) = (upTo l).drop k := by
  induction l generalizing k with
  | nil => simp [upTo]
  | cons c l ih =>
    cases k with
    | zero => rfl
    | succ k =>
      cases c with
      | none => exact absurd h (by simp [upTo])
      | some c => exact ih (Nat.le_of_succ_le_succ h)

theorem length_upTo_le (l : List (Option UInt8)) : (upTo l).length ≤ l.length := by
  induction l with
  | nil => exact le_rfl
  | cons c l ih =>
    cases c with
    | none => exact Nat.zero_le _
    | some c => exact Nat.succ_le_succ ih

/-- A range of a file is a part of it, unless it begins behind what is not there. -/
theorem upTo_range {g : ℕ → Option UInt8} {size : ℕ}
    (hoff : off ≤ (upTo ((List.range size).map g)).length) :
    upTo ((List.range (min len (size - off))).map fun i => g (off + i)) =
      ((upTo ((List.range size).map g)).drop off).take len := by
  rw [← upTo_drop hoff, ← upTo_take]
  congr 1
  refine List.ext_getElem? fun i => ?_
  rw [List.getElem?_take, List.getElem?_drop, List.getElem?_map, List.getElem?_map]
  by_cases hi : i < min len (size - off)
  · rw [List.getElem?_range hi, if_pos (by omega), List.getElem?_range (by omega)]
    rfl
  · rw [List.getElem?_eq_none (by rw [List.length_range]; omega), Option.map_none]
    by_cases hlen : i < len
    · rw [if_pos hlen, List.getElem?_eq_none (by rw [List.length_range]; omega), Option.map_none]
    · rw [if_neg hlen]

theorem length_bytesOf_le (s : Fs) (ino : ℕ) :
    (s.bytesOf ino).length ≤ inodeSize (s.loaded ino).ino := by
  rw [bytesOf]
  split
  · exact (length_upTo_le _).trans (by rw [List.length_map, List.length_range])
  · exact Nat.zero_le _

/-- What one call of `read` copies. -/
def rangeOf (s : Fs) (ino len off : ℕ) : List UInt8 :=
  let img := (s.loaded ino).ino
  if s.geo.IsIno ino ∧ IsFile img then
    upTo ((List.range (min len (inodeSize img - off))).map fun i => byteIn (s.blockBytes img)
      s.geo.bs (off + i))
  else []

/-- **A call of `read`**, from any state that reads the same. -/
theorem wp_read_range (hg : s.geo.Ok) (h : Quiet s t) :
    wp (read ino len off) (fun r t' => Quiet s t' ∧ r = s.rangeOf ino len off)
      (fun t' => Quiet s t' ∧ ∀ n, s.rangeOf ino n off = []) t := by
  have hgeo := core_geo h.core
  have hload := h.loaded hg ino
  rw [read, wp_bind, wp_loadInode (hgeo ▸ hg), hgeo]
  constructor
  · intro hi
    rw [wp_bind, wp_get, hload.ino]
    generalize hr : t.loaded ino = t₁ at hload
    generalize himg : (s.loaded ino).ino = img at hload
    have hrange : ∀ n, s.rangeOf ino n off = if s.geo.IsIno ino ∧ IsFile img then
        upTo ((List.range (min n (inodeSize img - off))).map
          fun i => byteIn (s.blockBytes img) s.geo.bs (off + i)) else [] := by
      intro n
      rw [rangeOf, himg]
    have hquiet : ∀ {u}, Near s img u → Quiet s u := by
      intro u hu
      rw [← himg] at hu
      exact .of_near hu
    rw [wp_bind, wp_guard]
    constructor
    · intro hfile
      simp only [if_pos (And.intro hi hfile)] at hrange
      have hlt := inodeSize_lt img
      rw [wp_bind, wp_guard]
      constructor
      · intro hin
        refine wp_mono (wp_readLoop_of (I := Near s img) (f := s.blockBytes img) hg.bs_pos
          (fun u hu => congrArg Geometry.bs (core_geo hu.core)) (fun b u hu => hu.readBlock b)
          (Nat.zero_add _).ge (by omega) hload) ?_ fun _ => False.elim
        rintro r u ⟨hu, rfl⟩
        exact ⟨hquiet hu, (hrange len).symm⟩
      · intro hin
        refine ⟨hquiet hload, fun n => ?_⟩
        rw [hrange, Nat.sub_eq_zero_of_le (not_lt.mp hin), Nat.min_zero]
        rfl
    · intro hfile
      exact ⟨hquiet hload, fun n => (hrange n).trans (if_neg fun hn => hfile hn.2)⟩
  · exact fun hi => ⟨h, fun n => if_neg fun hn => hi hn.1⟩

/-- It does not matter what is in the buffers. -/
theorem readBytes_eq_range (hg : s.geo.Ok) (h : Quiet s t) :
    t.readBytes ino len off = s.rangeOf ino len off := by
  have hread : wp (read ino len off) _ _ t := wp_read_range hg h
  rw [readBytes]
  rw [wp] at hread
  generalize exec (read ino len off) t = r at hread
  rcases r with ⟨_ | l, u⟩
  · exact (hread.2 len).symm
  · exact hread.2

/-- From a place that the reads in front of it have got to, it is a part of the file. -/
theorem rangeOf_eq (hoff : off ≤ (s.bytesOf ino).length) :
    s.rangeOf ino len off = ((s.bytesOf ino).drop off).take len := by
  rw [bytesOf] at hoff ⊢
  rw [rangeOf]
  by_cases hfile : s.geo.IsIno ino ∧ IsFile (s.loaded ino).ino
  · rw [if_pos hfile] at hoff ⊢
    rw [if_pos hfile]
    exact upTo_range hoff
  · rw [if_neg hfile, if_neg hfile, List.drop_nil, List.take_nil]

theorem wp_read_quiet (hg : s.geo.Ok) (h : Quiet s t) (hoff : off ≤ (s.bytesOf ino).length) :
    wp (read ino len off) (fun r t' => Quiet s t' ∧ r = ((s.bytesOf ino).drop off).take len)
      (fun t' => Quiet s t' ∧ (s.bytesOf ino).drop off = []) t := by
  refine wp_mono (wp_read_range hg h) (fun r t' ht' => ⟨ht'.1, ht'.2.trans (rangeOf_eq hoff)⟩)
    fun t' ht' => ⟨ht'.1, ?_⟩
  have hall := ht'.2 ((s.bytesOf ino).drop off).length
  rwa [rangeOf_eq hoff, List.take_length] at hall

/-- What `read` copies, from a place it gets to. -/
theorem readBytes_quiet (hg : s.geo.Ok) (hoff : off ≤ (s.bytesOf ino).length) :
    s.readBytes ino len off = ((s.bytesOf ino).drop off).take len :=
  (readBytes_eq_range hg (.refl s)).trans (rangeOf_eq hoff)

/-! ## One call after the other -/

/-- **The calls of a chain** come to the end, whatever they ask for. -/
theorem wp_readUntil (hg : s.geo.Ok) {lens : ℕ → ℕ} (hlens : ∀ k, 0 < lens k) {fuel k : ℕ}
    {acc rest : List UInt8} (h : Quiet s t) (hw : acc ++ rest = s.bytesOf ino)
    (hfuel : rest.length < fuel) :
    wp (readUntil ino lens fuel k acc) (fun r _ => r = s.bytesOf ino) (fun _ => False) t := by
  induction fuel generalizing k acc rest t with
  | zero => omega
  | succ fuel ih =>
    have hdrop : (s.bytesOf ino).drop acc.length = rest := by rw [← hw, List.drop_left]
    have hle : acc.length ≤ (s.bytesOf ino).length := by rw [← hw, List.length_append]; omega
    rw [readUntil, wp_bind, wp_attempt]
    refine wp_mono (wp_read_quiet hg h hle) ?_ ?_
    · rintro r u ⟨hu, hr⟩
      rw [hdrop] at hr
      rw [wp_ite, Option.getD_some, hr]
      have hpos := hlens k
      constructor
      · intro hnil
        rw [wp_pure]
        rcases List.take_eq_nil_iff.mp hnil with hz | hz
        · omega
        · rw [← hw, hz, List.append_nil]
      · intro hcons
        refine ih hu (?_ : _ ++ rest.drop (lens k) = _) ?_
        · rw [List.append_assoc, List.take_append_drop, hw]
        · have hne : rest ≠ [] := fun hz => hcons (by rw [hz, List.take_nil])
          have := List.length_pos_iff.mpr hne
          rw [List.length_drop]
          omega
    · rintro u ⟨_, hnil⟩
      rw [hdrop] at hnil
      rw [wp_ite]
      refine ⟨fun _ => ?_, fun hn => absurd rfl hn⟩
      rw [wp_pure, ← hw, hnil, List.append_nil]

/-- No byte is copied that was not asked for, or that is behind the end of the file. -/
theorem length_readBytes_le (hg : s.geo.Ok) (hi : s.geo.IsIno ino) (len off : ℕ) :
    (s.readBytes ino len off).length ≤ min len (inodeSize (s.inodes ino) - off) := by
  have hsame := loaded_ino hg hi
  have hload := (Quiet.refl s).loaded hg ino
  suffices h : wp (read ino len off)
      (fun r _ => r.length ≤ min len (inodeSize (s.inodes ino) - off)) (fun _ => True) s by
    rw [readBytes]
    rw [wp] at h
    generalize exec (read ino len off) s = r at h
    rcases r with ⟨_ | l, u⟩
    · exact Nat.zero_le _
    · exact h
  rw [read, wp_bind, wp_loadInode hg]
  refine ⟨fun _ => ?_, fun _ => trivial⟩
  rw [wp_bind, wp_get, hsame.inodeSize]
  generalize (s.loaded ino).ino = img at hload
  generalize s.loaded ino = t at hload
  have hlt := inodeSize_lt (s.inodes ino)
  rw [wp_bind, wp_guard]
  refine ⟨fun _ => ?_, fun _ => trivial⟩
  rw [wp_bind, wp_guard]
  refine ⟨fun hoff => ?_, fun _ => trivial⟩
  refine wp_mono (wp_readLoop_of (I := Near s img) (f := s.blockBytes img) hg.bs_pos
    (fun u hu => congrArg Geometry.bs (core_geo hu.core)) (fun b u hu => hu.readBlock b)
    (Nat.zero_add _).ge (by omega) hload) ?_ fun _ => False.elim
  rintro r u ⟨-, rfl⟩
  refine (length_upTo_le _).trans ?_
  rw [List.length_map, List.length_range]
  exact Nat.sub_le _ _

/-- **Reading piece by piece** is reading at once. -/
theorem readUntil_eq (hg : s.geo.Ok) (hi : s.geo.IsIno ino) {lens : ℕ → ℕ}
    (hlens : ∀ k, 0 < lens k) :
    (exec (readUntil ino lens (inodeSize (s.inodes ino) + 1) 0 []) s).1 =
        some (s.readBytes ino (inodeSize (s.inodes ino)) 0) ∧
      ∀ t, Quiet s t → ∀ len off,
        (t.readBytes ino len off).length ≤ min len (inodeSize (s.inodes ino) - off) := by
  have hle : (s.bytesOf ino).length ≤ inodeSize (s.inodes ino) := by
    rw [← (loaded_ino hg hi).inodeSize]
    exact length_bytesOf_le s ino
  have hwhole : s.readBytes ino (inodeSize (s.inodes ino)) 0 = s.bytesOf ino := by
    rw [readBytes_quiet hg (Nat.zero_le _), List.drop_zero, List.take_of_length_le hle]
  constructor
  · obtain ⟨r, u, hex, hr⟩ := exec_of_wp (wp_readUntil (k := 0) hg hlens (.refl s)
      (List.nil_append (s.bytesOf ino)) (Nat.lt_succ_of_le hle))
    rw [hex, hr, hwhole]
  · intro t ht len off
    have hgeo := core_geo ht.core
    rw [← core_inodes ht.core]
    exact length_readBytes_le (hgeo ▸ hg) (hgeo ▸ hi) len off

/-- The file is read two bytes at a time. -/
theorem readUntil_filed :
    (exec (readUntil 12 (fun _ => 2) (inodeSize (filed.inodes 12) + 1) 0 []) filed).1 =
    some (filed.readBytes 12 (inodeSize (filed.inodes 12)) 0) :=
  (readUntil_eq valid_filed.geo (by decide) fun _ => by decide).1

end Fs

end Aurisys
