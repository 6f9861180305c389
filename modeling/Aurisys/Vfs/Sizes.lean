import Aurisys.Fs.Failed
import Aurisys.Vfs.Walk

/-!
# The sizes that descriptors have

A descriptor has the size its file had when it was opened, and gets it again when it is written
through. It does not hear of what is done through another one. So the sizes are right as long as a
call that changes the size of the file is made when no other descriptor is open on it.

`lseek` from the end and `SYS_fstat` use the size of the descriptor.

## Main definitions

* `Vfs.OpenOn` — a descriptor is open on a file
* `Vfs.Current` — `lseek` and `SYS_fstat` say what `getstat` says
* `WriteSafe`, `OpenSafe` — the size does not change, or nobody else has it
* `Runs` — the states after some calls

## Main results

* `sizes_current`
-/

namespace Aurisys

open Bytes Fallible Path Fs

/-- A regular file on a volume that is in order. -/
structure Regular (s : Fs) (ino : ℕ) : Prop where
  /-- The volume is in order. -/
  valid : Valid s
  /-- The number is that of an inode, -/
  isIno : s.geo.IsIno ino
  /-- which is in use, -/
  live : s.Live ino
  /-- and a file, -/
  file : IsFile (s.inodes ino)
  /-- with extents. -/
  magic : r16 (s.inodes ino) 0x28 = kExtMagic

/-- `write_at` is going to give up before it has taken a block or filled a part of the gap. -/
def Fs.GivesUp (s : Fs) (ino off len : ℕ) : Prop :=
  if off ≤ inodeSize (s.inodes ino) then ∃ d, Refused s ino off len d else RefusedFirst s ino

namespace Vfs

/-- The descriptor is open on a regular file. -/
structure OpenOn (w : Vfs) (ino p : ℕ) (fd : Fin kMaxFd) (n : Fs.Node) : Prop where
  /-- The descriptor has a node of the volume, -/
  node : (w.fd p fd).n = .ext n
  /-- with this number, -/
  inode : n.inode = ino
  /-- and it is a file. -/
  type : n.type = kTypeFile

/-- The end that `lseek` goes to, and the size `SYS_fstat` reports, are those of `getstat`. -/
def Current (w : Vfs) (ino p : ℕ) (fd : Fin kMaxFd) : Prop :=
  ∃ st, (exec (getstat ino) w.vol).1 = some st ∧ (w.lseek p fd 0 2).1 = Kernel.toInt st.size ∧
    (w.fstat p fd).2.1 = st.size

/-- That is so for all descriptors of the file. -/
def AllCurrent (w : Vfs) (ino : ℕ) : Prop := ∀ p fd n, w.OpenOn ino p fd n → w.Current ino p fd

/-- No other descriptor is open on the file. -/
def Alone (w : Vfs) (ino p : ℕ) (fd : Fin kMaxFd) : Prop :=
  ∀ p' fd' n, w.OpenOn ino p' fd' n → p' = p ∧ fd' = fd

/-- Where `fd_write` is going to write. -/
def writeOff (w : Vfs) (ino p : ℕ) (fd : Fin kMaxFd) : ℕ :=
  if (w.fd p fd).flags &&& oAppend ≠ 0 then inodeSize (w.vol.inodes ino) else (w.fd p fd).pos.toNat

/-- The volume when `fd_write` calls `write_at`. -/
def writeVol (w : Vfs) (p : ℕ) (fd : Fin kMaxFd) (n : Fs.Node) : Fs :=
  (exec (writePos n (w.fd p fd)) w.vol).2

/-- The bytes are in the file already, or they are refused, or nobody else has the file open and
`write_at` does not fail. -/
def WriteSafe (w : Vfs) (ino p : ℕ) (fd : Fin kMaxFd) (n : Fs.Node) (buf : Bytes)
    (len : UInt32) : Prop :=
  let off := w.writeOff ino p fd
  let size := inodeSize (w.vol.inodes ino)
  off ≤ size ∧ u32 (off + len.toNat) ≤ size ∨ GivesUp w.vol ino off len.toNat ∨
    w.Alone ino p fd ∧ (exec (writeAt ino buf off len.toNat) (w.writeVol p fd n)).1 ≠ none

/-- `lookup_abs` looks up the path and nothing behind it. And the file is empty, or nobody has it
open. -/
def OpenSafe (w : Vfs) (ino : ℕ) (cwd path : Str) : Prop :=
  (∀ abs, resolve path (some cwd) 256 = some abs → copied abs w.vol.stack = components abs) ∧
    (inodeSize (w.vol.inodes ino) = 0 ∨ ∀ p fd n, ¬w.OpenOn ino p fd n)

/-- **The states after some calls** through descriptors of a file, and opens of it, all of which
meet their condition. -/
inductive Runs (ino : ℕ) (w₀ : Vfs) : Vfs → Prop
  | start : Runs ino w₀ w₀
  | write {w : Vfs} (h : Runs ino w₀ w) {p : ℕ} {fd : Fin kMaxFd} {n : Fs.Node}
  (ho : w.OpenOn ino p fd n)
      (buf : Bytes) (len : UInt32) (hsafe : w.WriteSafe ino p fd n buf len) :
      Runs ino w₀ (w.fdWrite p fd n buf len).2
  | seek {w : Vfs} (h : Runs ino w₀ w) {p : ℕ} {fd : Fin kMaxFd} {n : Fs.Node}
    (ho : w.OpenOn ino p fd n)
      (off whence : UInt32) : Runs ino w₀ (w.lseek p fd off whence).2
  | openFile {w : Vfs} (h : Runs ino w₀ w) (p : ℕ) (path : Str) (flags : ℕ) {n : Fs.Node}
      (hleads : w.leads (w.cwd p) path = some (.ext n)) (hino : n.inode = ino)
        (htype : n.type = kTypeFile)
      (hsafe : flags &&& oTrunc ≠ 0 → w.OpenSafe ino (w.cwd p) path) :
      Runs ino w₀ (w.fdOpen p path flags).2

end Vfs

/-! ## The file -/

namespace Regular

variable {s t u : Fs} {ino : ℕ}

theorem of_core (h : Regular s ino) (hcore : t.core = s.core) : Regular t ino := by
  have hinodes := core_inodes hcore
  exact ⟨h.valid.of_core hcore, core_geo hcore ▸ h.isIno, (core_live hcore).mpr h.live,
    hinodes ▸ h.file, hinodes ▸ h.magic⟩

theorem intact (h : Regular s ino) (hu : Intact s ino u) : Regular u ino :=
  ⟨hu.valid, hu.geo ▸ h.isIno, (hu.live ino).mpr h.live, hu.file, hu.magic⟩

theorem sizeOf (h : Regular s ino) : s.sizeOf ino = inodeSize (s.inodes ino) := if_pos h.isIno

theorem getstat (h : Regular s ino) : (exec (getstat ino) s).1 = some (statOf ino (s.inodes ino)) :=
  exec_getstat h.valid.geo h.isIno

/-- Getting the size changes nothing but the buffers. -/
theorem wp_getstat (h : Regular s ino) : wp (Fs.getstat ino)
    (fun st t => Still s t ∧ st.size = inodeSize (s.inodes ino)) (fun _ => False) s := by
  have hg := h.valid.geo
  have hsize : wp (Fs.getstat ino) (fun st _ => st.size = inodeSize (s.inodes ino))
      (fun _ => False) s := by
    rw [Fs.getstat, wp_bind, wp_loadInode hg]
    exact ⟨fun hi => (loaded_ino hg hi).inodeSize, fun hno => hno h.isIno⟩
  exact wp_mono (wp_and ((Still.refl s).getstat hg ino) hsize) (fun _ _ h => h) fun _ h => h.2

end Regular

namespace Vfs

variable {w w₀ : Vfs} {ino p : ℕ} {fd : Fin kMaxFd} {n : Fs.Node}

/-- **A descriptor is current** if its node has the size of the file. -/
theorem current_iff (hreg : Regular w.vol ino) (ho : w.OpenOn ino p fd n) :
    w.Current ino p fd ↔ n.size = inodeSize (w.vol.inodes ino) := by
  have hnode : (w.fd p fd).n.node = n := by rw [ho.node]; rfl
  have hsize : (w.fstat p fd).2.1 = n.size := by rw [fstat, hnode]
  have htype : (w.fd p fd).n.node.type ≠ 0 := by
    rw [hnode, ho.type]
    decide
  rw [Current, hreg.getstat, hsize]
  constructor
  · rintro ⟨_, ⟨⟩, -, h⟩
    exact h
  · intro h
    refine ⟨_, rfl, ?_, h⟩
    have hlt : n.size < 2 ^ 32 := h ▸ inodeSize_lt _
    have hseek : (w.lseek p fd 0 2).1 = Kernel.toInt ((n.size + 0) % 2 ^ 32) := by
      have hbase : (seen (w.fd p fd)).seekBase (SeekCall.mk 0 2).whence = some n.size := by
        rw [← hnode]
        rfl
      rw [lseek, if_neg htype]
      change ((seen (w.fd p fd)).lseek (SeekCall.mk 0 2).off (SeekCall.mk 0 2).whence).1 = _
      rw [OFile.lseek_of_base hbase, if_neg]
      · rfl
      · rintro ⟨hneg, -⟩
        exact absurd hneg (by decide)
    rw [hseek, Nat.add_zero, Nat.mod_eq_of_lt hlt, h]
    rfl

/-- The volume is in order, and every descriptor has the size of the file. -/
structure Sane (w : Vfs) (ino : ℕ) : Prop where
  /-- The file is in order. -/
  regular : Regular w.vol ino
  /-- Whoever has it open has its size. -/
  size : ∀ p fd n, w.OpenOn ino p fd n → n.size = inodeSize (w.vol.inodes ino)

theorem sane_iff (hreg : Regular w.vol ino) : w.Sane ino ↔ w.AllCurrent ino :=
  ⟨fun h p fd n ho => (current_iff hreg ho).mpr (h.size p fd n ho),
    fun h => ⟨hreg, fun p fd n ho => (current_iff hreg ho).mp (h p fd n ho)⟩⟩

/-! ## Writing -/

/-- A descriptor is changed, and the volume. -/
theorem Sane.setFd {vol : Fs} {e : Slot} (hreg : Regular vol ino)
    (hself : ∀ m, e.n = .ext m → m.inode = ino → m.type = kTypeFile →
      m.size = inodeSize (vol.inodes ino))
    (hothers : ∀ p' fd' m, ¬(p' = p ∧ fd' = fd) → w.OpenOn ino p' fd' m →
      m.size = inodeSize (vol.inodes ino)) : ((w.setVol vol).setFd p fd e).Sane ino := by
  refine ⟨hreg, fun p' fd' m ho => ?_⟩
  by_cases hsame : p' = p ∧ fd' = fd
  · obtain ⟨rfl, rfl⟩ := hsame
    have hfd : ((w.setVol vol).setFd p' fd' e).fd p' fd' = e := by
      rw [Vfs.setFd]
      simp only [Function.update_self]
    exact hself m (hfd ▸ ho.node) ho.inode ho.type
  · have hfd : ((w.setVol vol).setFd p fd e).fd p' fd' = w.fd p' fd' := by
      change Function.update w.fd p (Function.update (w.fd p) fd e) p' fd' = _
      by_cases hp : p' = p
      · rw [hp, Function.update_self, Function.update_of_ne fun hf => hsame ⟨hp, hf⟩]
      · rw [Function.update_of_ne hp]
    exact hothers p' fd' m hsame ⟨hfd ▸ ho.node, ho.inode, ho.type⟩

end Vfs

/-- A piece of the gap is no longer than a block. -/
theorem Fs.gapChunks_le {bs off fuel at_ : ℕ} {c : ℕ × ℕ} (h : c ∈ gapChunks bs off fuel at_) :
    c.2 ≤ bs := by
  have := (mem_gapChunks h).2.2
  omega

/-- **What `write_at` does to the size.** -/
theorem Regular.wp_writeAt {s : Fs} {ino off len : ℕ} {buf : Bytes} (h : Regular s ino)
    (hoff : off < 2 ^ 32)
    (hlen : len < 2 ^ 32) :
    wp (writeAt ino buf off len)
      (fun _ u => Intact s ino u ∧ ¬GivesUp s ino off len ∧
        (off ≤ inodeSize (s.inodes ino) ∧ u32 (off + len) ≤ inodeSize (s.inodes ino) →
          inodeSize (u.inodes ino) = inodeSize (s.inodes ino)))
      (fun u => Intact s ino u ∧
        (off ≤ inodeSize (s.inodes ino) ∧ u32 (off + len) ≤ inodeSize (s.inodes ino) ∨
          GivesUp s ino off len → inodeSize (u.inodes ino) = inodeSize (s.inodes ino))) s := by
  obtain ⟨hv, hi, hl, hfile, hmagic⟩ := h
  -- A call that is refused a block at once leaves the inodes.
  have hrefused : ∀ {o l d : ℕ} {b : Bytes} {u : Fs}, Refused s ino o l d → Leaves s ino b o l u →
      inodeSize (u.inodes ino) = inodeSize (s.inodes ino) := by
    intro o l d b u hr hu
    rcases hu.what with ⟨-, hno⟩ | ⟨_, -, hp⟩
    · exact absurd hr (hno d)
    · rw [(Grew.self hv hl).poured_inodes hp hv.geo]
  by_cases hin : off ≤ inodeSize (s.inodes ino)
  · have hgives : GivesUp s ino off len ↔ ∃ d, Refused s ino off len d := by
      rw [GivesUp, if_pos hin]
    rw [hgives]
    refine wp_mono (wp_writeAt_inside hv hi hl hfile hmagic hoff hlen hin) (fun _ u hu => ?_)
      fun u hu => ?_
    · refine ⟨hu.intact, fun ⟨d, hd⟩ => hu.granted d hd, fun hle => ?_⟩
      rw [hu.size, max_eq_left hle.2]
    · refine ⟨hu.2.toIntact, ?_⟩
      rintro (hle | ⟨d, hd⟩)
      · have hsize := hu.2.size_le
        rw [max_eq_left hle.2] at hsize
        exact le_antisymm hsize hu.1.size
      · exact hrefused hd hu.1
  · have hgap : inodeSize (s.inodes ino) < off := Nat.lt_of_not_le hin
    have hgives : GivesUp s ino off len ↔ RefusedFirst s ino := by rw [GivesUp, if_neg hin]
    rw [hgives, ← refused_firstChunk hv hgap hoff]
    refine wp_mono (wp_writeAt_behind hv hi hl hfile hmagic hoff hlen hgap
      fun c hc => gapChunks_le hc)
      ?_ fun u hu => ?_
    · rintro _ u ⟨hgranted, t, hfill, hw⟩
      exact ⟨hfill.intact.trans hv hw.intact, fun ⟨d, hd⟩ => hgranted d hd,
        fun hle => absurd hle.1 hin⟩
    · refine ⟨hu.2, ?_⟩
      rintro (hle | ⟨d, hd⟩)
      · exact absurd hle.1 hin
      · rcases hu.1.2 with ⟨-, hno⟩ | hleaves
        · exact absurd hd (hno d)
        · exact hrefused hd hleaves

namespace Vfs

variable {w w₀ : Vfs} {ino p : ℕ} {fd : Fin kMaxFd} {n : Fs.Node}

theorem wp_writePos (hreg : Regular w.vol ino) (hn : n.inode = ino) :
    wp (writePos n (w.fd p fd)) (fun pos t => Still w.vol t ∧ pos.toNat = w.writeOff ino p fd)
      (fun _ => False) w.vol := by
  have hne : n.inode ≠ 0 := hn ▸ hreg.isIno.1.ne'
  rw [writePos, writeOff, wp_ite]
  constructor
  · rintro ⟨hflag, -⟩
    rw [wp_bind, wp_attempt, if_pos hflag, hn]
    refine wp_mono hreg.wp_getstat ?_ fun _ => False.elim
    rintro st t ⟨ht, hsize⟩
    refine ⟨ht, ?_⟩
    rw [UInt32.toNat_ofNat', hsize]
    exact Nat.mod_eq_of_lt (inodeSize_lt _)
  · intro hno
    rw [if_neg fun hflag => hno ⟨hflag, hne⟩]
    exact ⟨.refl _, rfl⟩

/-- **`ext_write`** gives the node the size the file has then. -/
theorem wp_extWrite {t : Fs} {buf : Bytes} {off len : UInt32} (hreg : Regular t ino)
    (hn : n.inode = ino) :
    wp (extWrite n buf off len)
      (fun size u => Regular u ino ∧ size = inodeSize (u.inodes ino) ∧
        (exec (writeAt ino buf off.toNat len.toNat) t).1 ≠ none ∧
        ¬GivesUp t ino off.toNat len.toNat ∧
        (off.toNat ≤ inodeSize (t.inodes ino) ∧
          u32 (off.toNat + len.toNat) ≤ inodeSize (t.inodes ino) →
          inodeSize (u.inodes ino) = inodeSize (t.inodes ino)))
      (fun u => Regular u ino ∧ (exec (writeAt ino buf off.toNat len.toNat) t).1 = none ∧
        (off.toNat ≤ inodeSize (t.inodes ino) ∧
          u32 (off.toNat + len.toNat) ≤ inodeSize (t.inodes ino) ∨
          GivesUp t ino off.toNat len.toNat → inodeSize (u.inodes ino) =
          inodeSize (t.inodes ino))) t := by
  have hne : n.inode ≠ 0 := hn ▸ hreg.isIno.1.ne'
  have hcall : wp (writeAt ino buf off.toNat len.toNat)
      (fun _ _ => (exec (writeAt ino buf off.toNat len.toNat) t).1 ≠ none)
      (fun _ => (exec (writeAt ino buf off.toNat len.toNat) t).1 = none) t := by
    rw [wp]
    generalize exec (writeAt ino buf off.toNat len.toNat) t = r
    rcases r with ⟨_ | _, v⟩
    · rfl
    · exact Option.some_ne_none _
  rw [extWrite, wp_bind, wp_guard]
  refine ⟨fun _ => ?_, fun hno => absurd hne hno⟩
  rw [wp_bind, hn]
  refine wp_mono (wp_and hcall (hreg.wp_writeAt off.toNat_lt len.toNat_lt)) ?_ ?_
  · rintro _ v ⟨hsome, hu, hgives, hsize⟩
    have hv := hreg.intact hu
    rw [wp_bind, wp_attempt]
    refine wp_mono hv.wp_getstat ?_ fun _ => False.elim
    rintro st u ⟨hstill, hst⟩
    have hinodes := core_inodes hstill.core
    exact ⟨hv.of_core hstill.core, by rw [hinodes]; exact hst, hsome, hgives,
      by rw [hinodes]; exact hsize⟩
  · rintro v ⟨hnone, hu, hsize⟩
    exact ⟨hreg.intact hu, hnone, hsize⟩

end Vfs

/-- The buffers do not matter. -/
theorem Fs.core_givesUp {s t : Fs} {ino off len : ℕ} (h : t.core = s.core) :
    GivesUp t ino off len ↔ GivesUp s ino off len := by
  rw [GivesUp, GivesUp, RefusedFirst, RefusedFirst, core_inodes h, core_geo h, core_freeRun h]
  simp only [core_refused h]

namespace Vfs

variable {w w₀ : Vfs} {ino p : ℕ} {fd : Fin kMaxFd} {n : Fs.Node}

/-- **A write that meets the condition.** -/
theorem Sane.write (h : w.Sane ino) (ho : w.OpenOn ino p fd n) {buf : Bytes} {len : UInt32}
    (hsafe : w.WriteSafe ino p fd n buf len) : (w.fdWrite p fd n buf len).2.Sane ino := by
  have hreg := h.regular
  obtain ⟨pos, t, hpos, hstill, hoff⟩ := exec_of_wp (@wp_writePos w ino p fd n hreg ho.inode)
  have hvol : w.writeVol p fd n = t := by rw [writeVol, hpos]
  have hcore := hstill.core
  have hregt := hreg.of_core hcore
  have hinodes := core_inodes hcore
  have hwrite := @wp_extWrite ino n t buf pos len hregt ho.inode
  rw [hinodes, core_givesUp hcore, hoff] at hwrite
  rw [WriteSafe, hvol] at hsafe
  rw [fdWrite]
  simp only [hpos, Option.getD_some]
  rw [wp] at hwrite
  generalize exec (extWrite n buf pos len) t = r at hwrite
  rcases r with ⟨_ | size, u⟩
  · obtain ⟨hu, hnone, hsize⟩ := hwrite
    -- The call has failed, so it was not needed that it does not.
    have hsize : inodeSize (u.inodes ino) = inodeSize (w.vol.inodes ino) := by
      rcases hsafe with hin | hgives | ⟨-, hsome⟩
      · exact hsize (.inl hin)
      · exact hsize (.inr hgives)
      · exact absurd hnone hsome
    refine Sane.setFd hu (fun m hm hi ht => ?_) fun p' fd' m _ ho' => ?_
    · exact (h.size p fd m ⟨hm, hi, ht⟩).trans hsize.symm
    · exact (h.size p' fd' m ho').trans hsize.symm
  · obtain ⟨hu, rfl, -, hgives, hsize⟩ := hwrite
    refine Sane.setFd hu (fun m hm _ _ => ?_) fun p' fd' m hne ho' => ?_
    · rw [← VNode.ext.inj hm]
    · rcases hsafe with hin | hno | ⟨halone, -⟩
      · exact (h.size p' fd' m ho').trans (hsize hin).symm
      · exact absurd hno hgives
      · exact absurd (halone p' fd' m ho') hne

/-- `lseek` changes the position. -/
theorem Sane.seek (h : w.Sane ino) (off whence : UInt32) :
    (w.lseek p fd off whence).2.Sane ino := by
  rw [lseek]
  split
  · exact h
  · refine @Sane.setFd w ino p fd w.vol _ h.regular (fun m hm hi ht => ?_) fun p' fd' m _ ho' => ?_
    · exact h.size p fd m ⟨hm, hi, ht⟩
    · exact h.size p' fd' m ho'

/-! ## Opening -/

/-- A path to a file leads `lookup_abs` there, too, and the node has its size. -/
theorem leads_file {cwd path : Str} (hleads : w.leads cwd path = some (.ext n))
    (htype : n.type = kTypeFile) :
    ∃ abs, resolve path (some cwd) 256 = some abs ∧
      w.vol.descend (components abs) kRootIno = some n.inode ∧ n.size = w.vol.sizeOf n.inode := by
  obtain ⟨abs, habs, hwalk⟩ := Option.bind_eq_some_iff.mp hleads
  obtain ⟨hdesc, ⟨-, rfl⟩ | hsize⟩ := walk_ext hwalk
  · -- The root is a directory.
    have hdir : w.root.type = kTypeDir := rfl
    rw [hdir] at htype
    exact absurd htype (by decide)
  · exact ⟨abs, habs, hdesc, hsize⟩

/-- Where there is something nothing is created. -/
theorem wp_createMissing (hg : w.vol.geo.Ok) {cwd path : Str} {r : VNode}
    (hleads : w.leads cwd path = some r) (flags : ℕ) :
    wp (w.createMissing cwd path flags) (fun _ t => Still w.vol t) (fun _ => False) w.vol := by
  rw [createMissing, wp_ite]
  refine ⟨fun _ => ?_, fun _ => .refl w.vol⟩
  rw [wp_bind]
  refine wp_mono (wp_vfsResolve hg (.refl w.vol) cwd path) ?_ fun _ => id
  rintro _ t ⟨ht, rfl⟩
  rw [hleads]
  exact ht

/-- **`fd_open` of a file**, up to the search for a descriptor. -/
theorem wp_openNode (hreg : Regular w.vol ino) {cwd path : Str} {flags : ℕ}
    (hleads : w.leads cwd path = some (.ext n)) (hino : n.inode = ino) (htype : n.type = kTypeFile)
    (hcopied : flags &&& oTrunc ≠ 0 → ∀ abs, resolve path (some cwd) 256 = some abs →
      copied abs w.vol.stack = components abs) :
    wp (w.openNode cwd path flags)
      (fun r u => ∃ m, r = .ext m ∧ m.inode = ino ∧ m.size = inodeSize (u.inodes ino) ∧
        (Still w.vol u ∨ flags &&& oTrunc ≠ 0 ∧ Emptied w.vol ino u))
      (fun u => Still w.vol u) w.vol := by
  have hg := hreg.valid.geo
  obtain ⟨abs, habs, hdesc, hsize⟩ := leads_file hleads htype
  rw [hino, hreg.sizeOf] at hsize
  rw [hino] at hdesc
  rw [openNode, wp_bind]
  refine wp_mono (wp_createMissing hg hleads flags) (fun _ t ht => ?_) fun _ => False.elim
  rw [wp_bind]
  refine wp_mono (wp_vfsResolve hg ht cwd path) ?_ fun _ => False.elim
  rintro _ u ⟨hu, rfl⟩
  rw [hleads, wp_bind, wp_ofOption]
  refine ⟨?_, fun h => absurd h (Option.some_ne_none _)⟩
  rintro _ ⟨⟩
  rw [truncateFound, wp_ite]
  constructor
  · rintro ⟨-, -, htrunc⟩
    rw [wp_bind]
    refine wp_mono (wp_writeFile_truncate hreg.valid hreg.isIno hreg.live hreg.file
      (fun _ => 0) habs ?_ hu)
      (fun _ v hv => ?_) fun _ hv => hv.1
    · rw [hcopied htrunc abs habs]
      exact hdesc
    · exact ⟨_, rfl, hino, hv.2.2.symm, .inr ⟨htrunc, hv.2⟩⟩
  · intro _
    exact ⟨n, rfl, hino, by rw [core_inodes hu.core]; exact hsize, .inl hu⟩

theorem wp_startPos {t : Fs} (hg : t.geo.Ok) (r : VNode) (flags : ℕ) :
    wp (startPos r flags) (fun _ u => Still t u) (fun _ => False) t := by
  rw [startPos, wp_ite]
  refine ⟨fun _ => ?_, fun _ => .refl t⟩
  rw [wp_bind, wp_attempt]
  exact wp_mono ((Still.refl t).getstat hg r.node.inode) (fun _ _ h => h) fun _ h => h

/-- **An open that meets the condition.** -/
theorem Sane.openFile (h : w.Sane ino) {path : Str} {flags : ℕ}
    (hleads : w.leads (w.cwd p) path = some (.ext n)) (hino : n.inode = ino)
    (htype : n.type = kTypeFile)
    (hsafe : flags &&& oTrunc ≠ 0 → w.OpenSafe ino (w.cwd p) path) :
    (w.fdOpen p path flags).2.Sane ino := by
  have hreg := h.regular
  have hspec := wp_openNode hreg hleads hino htype fun ht => (hsafe ht).1
  have hstill : ∀ u, Still w.vol u → (w.setVol u).Sane ino := fun u hu =>
    ⟨hreg.of_core hu.core, fun p fd m ho => by
      have hsize := h.size p fd m ⟨ho.node, ho.inode, ho.type⟩
      rw [← core_inodes hu.core] at hsize
      exact hsize⟩
  rw [fdOpen]
  rw [wp] at hspec
  generalize exec (w.openNode (w.cwd p) path flags) w.vol = r at hspec
  rcases r with ⟨_ | r, u⟩
  · exact hstill u hspec
  · obtain ⟨m, rfl, -, hsize, hwhat⟩ := hspec
    have hsane : (w.setVol u).Sane ino := by
      rcases hwhat with hu | ⟨htrunc, hintact, hempty⟩
      · exact hstill u hu
      · refine ⟨hreg.intact hintact, fun p fd m ho => ?_⟩
        have ho' : w.OpenOn ino p fd m := ⟨ho.node, ho.inode, ho.type⟩
        rcases (hsafe htrunc).2 with hzero | hnone
        · exact (h.size p fd m ho').trans (hzero.trans hempty.symm)
        · exact absurd ho' (hnone p fd m)
    dsimp only
    cases w.freeFd p with
    | none => exact hsane
    | some fd =>
      obtain ⟨pos, v, hpos, hv⟩ := exec_of_wp (wp_startPos hsane.regular.valid.geo (.ext m) flags)
      have hpos : exec (startPos (.ext m) flags) u = (some pos, v) := hpos
      have hinodes := core_inodes hv.core
      simp only [hpos]
      refine Sane.setFd (hsane.regular.of_core hv.core) (fun m' hm _ _ => ?_)
        fun p' fd' m' _ ho' => ?_
      · rw [hinodes, ← VNode.ext.inj hm]
        exact hsize
      · have hold := hsane.size p' fd' m' ⟨ho'.node, ho'.inode, ho'.type⟩
        rw [← hinodes] at hold
        exact hold

/-- **All descriptors of a file have its size** after any calls that meet their conditions, if they
have it before. -/
theorem sizes_current (hreg : Regular w₀.vol ino) (hstart : w₀.AllCurrent ino) (h : Runs ino w₀ w) :
    w.AllCurrent ino := by
  have hsane : w.Sane ino := by
    induction h with
    | start => exact (sane_iff hreg).mpr hstart
    | write _ ho buf len hsafe ih => exact ih.write ho hsafe
    | seek _ _ off whence ih => exact ih.seek off whence
    | openFile _ p path flags hleads hino htype hsafe ih =>
      exact ih.openFile hleads hino htype hsafe
  exact (sane_iff hsane.regular).mp hsane

/-! ## Two processes with one file -/

/-- The node of the file on the small volume. -/
def fileNode : Fs.Node := ⟨[97], 12, kTypeFile, 3⟩

/-- Two processes have opened the file. -/
def shared : Vfs where
  vol := filed
  mounts := []
  rootSize := 1024
  cwd _ := [slash]
  fd p fd := if (p = 1 ∨ p = 2) ∧ fd = 3 then ⟨.ext fileNode, 0, 0⟩ else .zero

theorem regular_filed : Regular filed 12 :=
  ⟨valid_filed, by decide, by decide +kernel, by decide +kernel, by decide +kernel⟩

theorem sane_shared : shared.Sane 12 := by
  refine ⟨regular_filed, fun p fd m ho => ?_⟩
  have hsize : inodeSize (filed.inodes 12) = 3 := by decide +kernel
  have hnode := ho.node
  by_cases hopen : (p = 1 ∨ p = 2) ∧ fd = 3
  · have hfd : shared.fd p fd = ⟨.ext fileNode, 0, 0⟩ := if_pos hopen
    rw [hfd] at hnode
    rw [← VNode.ext.inj hnode]
    exact hsize.symm
  · have hfd : shared.fd p fd = .zero := if_neg hopen
    have hinode := ho.inode
    rw [hfd] at hnode
    rw [← VNode.ext.inj hnode] at hinode
    exact absurd hinode (by decide)

theorem openOn_shared : shared.OpenOn 12 1 3 fileNode ∧ shared.OpenOn 12 2 3 fileNode :=
  ⟨⟨rfl, rfl, rfl⟩, rfl, rfl, rfl⟩

/-- One of them writes over the first two bytes. -/
theorem sizes_current_shared : (shared.fdWrite 1 3 fileNode (ofStr [65, 66]) 2).2.AllCurrent 12 :=
  sizes_current regular_filed ((sane_iff regular_filed).mp sane_shared)
    (.write .start openOn_shared.1 (ofStr [65, 66]) 2 (.inl (by decide +kernel)))

/-- One of them writes five bytes, and the other still sees three. -/
theorem stale_size : shared.AllCurrent 12 ∧ shared.OpenOn 12 1 3 fileNode ∧
    shared.OpenOn 12 2 3 fileNode ∧
    (shared.fdWrite 1 3 fileNode (ofStr [65, 66, 67, 68, 69]) 5).1 = 5 ∧
    ¬(shared.fdWrite 1 3 fileNode (ofStr [65, 66, 67, 68, 69]) 5).2.Current 12 2 3 := by
  refine ⟨(sane_iff regular_filed).mp sane_shared, openOn_shared.1, openOn_shared.2,
    by decide +kernel, ?_⟩
  rintro ⟨st, hst, -, hsize⟩
  have hstat : ((exec (getstat 12)
      (shared.fdWrite 1 3 fileNode (ofStr [65, 66, 67, 68, 69]) 5).2.vol).1.map
      Stat.size) = some 5 := by
    decide +kernel
  have hother : ((shared.fdWrite 1 3 fileNode (ofStr [65, 66, 67, 68, 69]) 5).2.fstat 2 3).2.1 =
      3 := by
    decide +kernel
  rw [hst] at hstat
  rw [hother] at hsize
  have := Option.some.inj hstat
  omega

end Vfs

end Aurisys
