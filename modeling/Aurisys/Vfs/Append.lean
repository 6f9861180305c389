import Aurisys.Fs.Splice
import Aurisys.Vfs.Sizes

/-!
# Appending

A descriptor with `O_APPEND` has a position and a size of its own, and both get out of date when
somebody else writes. `fd_write` asks for the size again before each write, so it always writes at
the end. A write that fails may have changed the block behind the end and taken others, but the file
does not get them.

All of that is so for files whose extents are in the inode. `write_at` takes any file for one of
those if the depth of its tree is zero, and where the inode has block numbers instead that is the
upper half of one of them. It puts its extent over these numbers, and the file is lost.

## Main definitions

* `Appends` — the states after some writes and seeks through such descriptors, and what has been
  written
* `Appendable` — the extents are in the inode, no byte is missing, and the free blocks are counted

## Main results

* `wp_writeAt_end`, `wp_extWrite_end`
* `contents_appends`
-/

namespace Aurisys

open Bytes Fallible Path Fs

/-- A file that can be appended to. -/
structure Appendable (s : Fs) (ino : ℕ) : Prop where
  /-- The file is in order, -/
  regular : Regular s ino
  /-- it has a block for each of its bytes, -/
  full : Full s ino
  /-- and there are blocks to be had. -/
  funded : Funded s

namespace Vfs

/-- **The states after some calls** through descriptors of a file that were opened to append, with
the data of the writes that have succeeded. -/
inductive Appends (ino : ℕ) (w₀ : Vfs) : List (List UInt8) → Vfs → Prop
  | start : Appends ino w₀ [] w₀
  | write {ds : List (List UInt8)} {w : Vfs} (h : Appends ino w₀ ds w) {p : ℕ}
  {fd : Fin kMaxFd} {n : Fs.Node}
      (ho : w.OpenOn ino p fd n) (happend : (w.fd p fd).flags &&& oAppend ≠ 0)
        (buf : Bytes) (len : UInt32)
      (hok : 0 ≤ (w.fdWrite p fd n buf len).1) :
      Appends ino w₀ (ds ++ [(List.range len.toNat).map buf]) (w.fdWrite p fd n buf len).2
  | failed {ds : List (List UInt8)} {w : Vfs} (h : Appends ino w₀ ds w) {p : ℕ}
    {fd : Fin kMaxFd} {n : Fs.Node}
      (ho : w.OpenOn ino p fd n) (happend : (w.fd p fd).flags &&& oAppend ≠ 0)
        (buf : Bytes) (len : UInt32)
      (hfail : (w.fdWrite p fd n buf len).1 < 0) : Appends ino w₀ ds (w.fdWrite p fd n buf len).2
  | seek {ds : List (List UInt8)} {w : Vfs} (h : Appends ino w₀ ds w) {p : ℕ}
    {fd : Fin kMaxFd} {n : Fs.Node}
      (ho : w.OpenOn ino p fd n) (off whence : UInt32) : Appends ino w₀ ds
        (w.lseek p fd off whence).2

end Vfs

variable {s t u : Fs} {ino off len : ℕ} {buf : Bytes}

/-! ## The file -/

theorem Fs.splice_end (old data : List UInt8) : splice old old.length data = old ++ data := by
  rw [splice, List.take_length, List.drop_of_length_le (Nat.le_add_right _ _), List.append_nil]

namespace Appendable

theorem of_core (h : Appendable s ino) (hcore : t.core = s.core) : Appendable t ino := by
  refine ⟨h.regular.of_core hcore, fun q hq => ?_, (core_funded hcore).mpr h.funded⟩
  rw [core_inodes hcore] at hq ⊢
  rw [byteAt_core hcore]
  exact h.full q hq

theorem flat (h : Appendable s ino) : Flat s.geo (s.inodes ino) :=
  table_of_live h.regular.live ▸ h.regular.valid.flat ino

theorem length (h : Appendable s ino) : (s.contents ino).length = inodeSize (s.inodes ino) :=
  length_contents h.regular.valid.geo h.regular.isIno h.flat h.regular.file h.full

theorem getElem? (h : Appendable s ino) (q : ℕ) : (s.contents ino)[q]? =
    if q < inodeSize (s.inodes ino) then s.byteAt (s.inodes ino) q else none :=
  getElem?_contents h.regular.valid.geo h.regular.isIno h.flat h.regular.file h.full q

/-- The buffers do not matter for the contents. -/
theorem contents_of_core (h : Appendable s ino) (hcore : t.core = s.core) :
    t.contents ino = s.contents ino := by
  refine List.ext_getElem? fun q => ?_
  rw [(h.of_core hcore).getElem?, h.getElem?, core_inodes hcore, byteAt_core hcore]

/-- **A write at the end that has succeeded** has not gone round the end of the numbers. -/
theorem bound (h : Appendable s ino) (hw : Written s ino buf (inodeSize (s.inodes ino)) len u) :
    inodeSize (s.inodes ino) + len < 2 ^ 31 := by
  have hlive := (hw.live ino).mpr h.regular.live
  have hgrew : Grew u u.table ino (u.inodes ino) u (u.inodes ino) := .refl (by
    rw [← table_of_live hlive, Function.update_eq_self]
    exact hw.valid)
  have hle : inodeSize (s.inodes ino) + len ≤ u.geo.blocks * u.geo.bs := by
    refine hgrew.range_le (fun q hq => byteAt_ne_none.mp ?_) fun i hi => byteAt_ne_none.mp ?_
    · by_cases hin : ∃ i < len, place (inodeSize (s.inodes ino)) i = q
      · obtain ⟨i, hi, rfl⟩ := hin
        rw [hw.fresh i hi]
        exact Option.some_ne_none _
      · obtain ⟨c, hc⟩ := Option.ne_none_iff_exists'.mp (h.full q hq)
        rw [hw.old q c (fun i hi he => hin ⟨i, hi, he⟩) hc]
        exact Option.some_ne_none c
    · rw [hw.fresh i hi]
      exact Option.some_ne_none _
  have htop : u.geo.blocks * u.geo.bs ≤ 32768 * 4096 :=
    Nat.mul_le_mul hw.valid.geo.blocks_le hw.valid.geo.bs_le
  omega

/-- **`write_at` at the end** of a file adds the data to it, or nothing. -/
theorem wp_writeAt_end (h : Appendable s ino) (hlen : len < 2 ^ 32) :
    wp (writeAt ino buf (inodeSize (s.inodes ino)) len)
      (fun _ u => Appendable u ino ∧ len < 2 ^ 31 ∧
        u.contents ino = s.contents ino ++ (List.range len).map buf)
      (fun u => Appendable u ino ∧ u.contents ino = s.contents ino) s := by
  have hreg := h.regular
  have hspec := @wp_writeAt_spared s buf ino (inodeSize (s.inodes ino)) len
    (writeAtBody (fun _ _ _ => failure) ino) hreg.valid hreg.isIno hreg.live hreg.file hreg.magic
    (inodeSize_lt _) hlen le_rfl
  refine wp_mono hspec ?_ ?_
  · rintro ⟨⟩ u ⟨hw, hfund⟩
    have hbound := h.bound hw
    have hlt : inodeSize (s.inodes ino) + len < 2 ^ 32 := by omega
    refine ⟨⟨hreg.intact hw.intact, hw.full h.full le_rfl hlt, hfund h.funded⟩, by omega, ?_⟩
    rw [hw.contents_eq hreg.valid hreg.isIno hreg.live hreg.file h.full le_rfl hlt,
      ← h.length, splice_end]
  · rintro u ⟨⟨-, hgiven⟩, hspared⟩
    obtain ⟨hfund, hinodes, hbytes⟩ := hspared h.funded h.full
    have hu : Appendable u ino := by
      refine ⟨hreg.intact hgiven.toIntact, fun q hq => ?_, hfund⟩
      rw [hinodes] at hq
      rw [hbytes q hq]
      exact h.full q hq
    refine ⟨hu, List.ext_getElem? fun q => ?_⟩
    rw [hu.getElem?, h.getElem?, hinodes]
    by_cases hq : q < inodeSize (s.inodes ino)
    · have := hbytes q hq
      rw [hinodes] at this
      rw [if_pos hq, if_pos hq, this]
    · rw [if_neg hq, if_neg hq]

end Appendable

/-! ## The calls -/

namespace Vfs

variable {w w₀ : Vfs} {p : ℕ} {fd : Fin kMaxFd} {n : Fs.Node} {ds : List (List UInt8)}

/-- **`ext_write` at the end.** -/
theorem wp_extWrite_end {off len : UInt32} (h : Appendable s ino) (hn : n.inode = ino)
    (hoff : off.toNat = inodeSize (s.inodes ino)) :
    wp (extWrite n buf off len)
      (fun _ u => Appendable u ino ∧ len.toNat < 2 ^ 31 ∧
        u.contents ino = s.contents ino ++ (List.range len.toNat).map buf)
      (fun u => Appendable u ino ∧ u.contents ino = s.contents ino) s := by
  have hne : n.inode ≠ 0 := hn ▸ h.regular.isIno.1.ne'
  rw [extWrite, wp_bind, wp_guard]
  refine ⟨fun _ => ?_, fun hno => absurd hne hno⟩
  rw [wp_bind, hn, hoff]
  refine wp_mono (h.wp_writeAt_end len.toNat_lt) ?_ fun _ => id
  rintro ⟨⟩ v ⟨hv, hlt, hcontents⟩
  rw [wp_bind, wp_attempt]
  refine wp_mono hv.regular.wp_getstat ?_ fun _ => False.elim
  rintro st u ⟨hstill, -⟩
  exact ⟨hv.of_core hstill.core, hlt, by rw [hv.contents_of_core hstill.core, hcontents]⟩

/-- **One write.** -/
theorem fdWrite_append (h : Appendable w.vol ino) (ho : w.OpenOn ino p fd n)
    (happend : (w.fd p fd).flags &&& oAppend ≠ 0) (buf : Bytes) (len : UInt32) :
    Appendable (w.fdWrite p fd n buf len).2.vol ino ∧
    (w.fdWrite p fd n buf len).2.vol.contents ino =
      w.vol.contents ino ++ if 0 ≤ (w.fdWrite p fd n buf len).1 then (List.range len.toNat).map buf
      else [] := by
  obtain ⟨pos, t, hpos, hstill, hoff⟩ := exec_of_wp (@wp_writePos w ino p fd n h.regular ho.inode)
  have ht := h.of_core hstill.core
  rw [writeOff, if_pos happend, ← core_inodes hstill.core] at hoff
  have hspec := @wp_extWrite_end t ino buf n pos len ht ho.inode hoff
  rw [h.contents_of_core hstill.core] at hspec
  rw [fdWrite]
  simp only [hpos, Option.getD_some]
  rw [wp] at hspec
  generalize exec (extWrite n buf pos len) t = r at hspec
  rcases r with ⟨_ | size, u⟩
  · obtain ⟨hu, hcontents⟩ := hspec
    have hneg : ¬(0 : ℤ) ≤ -1 := by decide
    exact ⟨hu, hcontents.trans (by rw [if_neg hneg, List.append_nil])⟩
  · obtain ⟨hu, hlt, hcontents⟩ := hspec
    have hpos : 0 ≤ Kernel.toInt len.toNat := by
      rw [Kernel.toInt, if_pos hlt]
      exact Int.natCast_nonneg _
    refine ⟨hu, ?_⟩
    rw [if_pos hpos]
    exact hcontents

theorem lseek_vol (off whence : UInt32) : (w.lseek p fd off whence).2.vol = w.vol := by
  rw [lseek]
  split
  · rfl
  · rfl

/-- **Appended data are behind what was there**, one after the other. -/
theorem contents_appends (hfile : Appendable w₀.vol ino) (h : Appends ino w₀ ds w) :
    w.vol.contents ino = w₀.vol.contents ino ++ ds.flatten := by
  suffices hall : Appendable w.vol ino ∧ w.vol.contents ino = w₀.vol.contents ino ++
    ds.flatten from hall.2
  induction h with
  | start => exact ⟨hfile, (List.append_nil _).symm⟩
  | write _ ho happend buf len hok ih =>
    obtain ⟨hw, hcontents⟩ := fdWrite_append ih.1 ho happend buf len
    rw [if_pos hok, ih.2, List.append_assoc] at hcontents
    exact ⟨hw, by rw [hcontents, List.flatten_append, List.flatten_singleton]⟩
  | failed _ ho happend buf len hfail ih =>
    obtain ⟨hw, hcontents⟩ := fdWrite_append ih.1 ho happend buf len
    rw [if_neg (not_le.mpr hfail), List.append_nil, ih.2] at hcontents
    exact ⟨hw, hcontents⟩
  | seek _ _ off whence ih =>
    rw [lseek_vol]
    exact ih

/-! ## Two processes that append -/

/-- Two processes have opened the file of a small volume to append. -/
def appending (disk : ℕ → Bytes) (size : ℕ) : Vfs where
  vol := { filed with disk := disk }
  mounts := []
  rootSize := 1024
  cwd _ := [slash]
  fd p fd := if (p = 1 ∨ p = 2) ∧ fd = 3 then ⟨.ext ⟨[97], 12, kTypeFile, size⟩, 0, oAppend⟩
    else .zero

/-- The file with three bytes. -/
def twoAppend : Vfs := appending filedDisk 3

theorem appendable_filed : Appendable filed 12 :=
  ⟨regular_filed, whole_filed.full, by decide +kernel⟩

/-- Each of them writes once, the second with a position of zero. -/
theorem contents_appends_filed :
    ((twoAppend.fdWrite 1 3 fileNode (ofStr [65, 66]) 2).2.fdWrite 2 3 fileNode
      (ofStr [67]) 1).2.vol.contents
      12 = twoAppend.vol.contents 12 ++ [[65, 66], [67]].flatten := by
  have happend : ∀ p fd, (p = 1 ∨ p = 2) ∧ fd = 3 → (twoAppend.fd p fd).flags &&& oAppend ≠ 0 := by
    intro p fd h
    have hfd : twoAppend.fd p fd = ⟨.ext fileNode, 0, oAppend⟩ := if_pos h
    rw [hfd]
    decide
  have hopen : twoAppend.OpenOn 12 1 3 fileNode := ⟨rfl, rfl, rfl⟩
  have hfirst : Appends 12 twoAppend [[65, 66]] (twoAppend.fdWrite 1 3 fileNode
    (ofStr [65, 66]) 2).2 :=
    .write .start hopen (happend 1 3 (by decide)) (ofStr [65, 66]) 2 (by decide +kernel)
  have hother : (twoAppend.fdWrite 1 3 fileNode (ofStr [65, 66]) 2).2.OpenOn 12 2 3 fileNode :=
    ⟨rfl, rfl, rfl⟩
  exact contents_appends appendable_filed
    (.write hfirst hother (happend 2 3 (by decide)) (ofStr [67]) 1 (by decide +kernel))

/-! ## A file with block numbers -/

/-- An inode that has block numbers and no extents, of a file with the blocks 8, 9 and 10. -/
def numberedImage : Bytes :=
  w32 (w32 (w32 (w32 (w16 (w32 (w16 (fun _ => 0) 0 0x81A4) 4 3072) 0x1A 1) 0x1C 6) 0x28 8) 0x2C 9)
    0x30 10

/-- The small volume with such a file. -/
def numberedDisk (b : ℕ) : Bytes :=
  if b = 2 then w16 (w16 (w16 (fun _ => 0) 0x0C 5) 0x0E 4) 0x10 1
  else if b = 3 then setBits (fun _ => 0) 0 11
  else if b = 6 then memcpy (fun _ => 0) 384 numberedImage 0 128
  else if 8 ≤ b ∧ b ≤ 10 then fun _ => 120
  else filedDisk b

/-- The file with three blocks. -/
def numbered : Vfs := appending numberedDisk 3072

/-- The node of that file. -/
def numberedNode : Fs.Node := ⟨[97], 12, kTypeFile, 3072⟩

/-- **One byte is appended to a file with block numbers**, and the file has no contents any more. -/
theorem appended_and_lost : IsFile (numbered.vol.inodes 12) ∧ numbered.OpenOn 12 1 3 numberedNode ∧
    (numbered.fdWrite 1 3 numberedNode (ofStr [65]) 1).1 = 1 ∧
    Appends 12 numbered [[65]] (numbered.fdWrite 1 3 numberedNode (ofStr [65]) 1).2 ∧
    (numbered.fdWrite 1 3 numberedNode (ofStr [65]) 1).2.vol.contents 12 ≠
      numbered.vol.contents 12 ++ [[65]].flatten := by
  have hopen : numbered.OpenOn 12 1 3 numberedNode := ⟨rfl, rfl, rfl⟩
  have hone : (numbered.fdWrite 1 3 numberedNode (ofStr [65]) 1).1 = 1 := by decide +kernel
  have hempty : (numbered.fdWrite 1 3 numberedNode (ofStr [65]) 1).2.vol.contents 12 = [] := by
    decide +kernel
  refine ⟨by decide +kernel, hopen, hone, ?_, ?_⟩
  · exact .write .start hopen (by decide +kernel) (ofStr [65]) 1 (by rw [hone]; decide)
  · rw [hempty]
    exact (List.append_ne_nil_of_right_ne_nil _ (List.cons_ne_nil _ _)).symm

end Vfs

end Aurisys
