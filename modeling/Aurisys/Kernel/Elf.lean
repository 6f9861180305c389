import Aurisys.Kernel.Replace

/-!
# What a program file makes the kernel store

Between the header of the file and the stack, `load_into` does what the file says: it reads the
program headers from where the file says they are, and each segment to where its header says it
goes. What it checks is an address and a sum of two fields; how much it reads is a third field. The
position in the file is moved by `lseek`, which may refuse, and nobody looks.

Here the file is the list of its bytes, and the result is the list of the segments that were stored,
each with the place in the file where its header is. `loadInto_readable` and `loadSegments_eq` say
that the kernel stores these.

## Main definitions

* `Elf.segments`, `Elf.load` — what is stored
* `Elf.StaysInside` — all of it is in the image, and the headers are the right ones
* `Elf.Fits`, `Elf.Complete`, `Elf.Headed` — conditions on the file

## Main results

* `staysInside_iff` — exactly the files that meet them
* `loadSegments_eq` — `Kernel.loadSegments` stores what `Elf.segments` says
* `readable_files`, `loadInto_readable` — and that is what `load_into` calls it with
-/

namespace Aurisys

open Bytes Kernel Paging

namespace Elf

/-- `fd_read` at a position: the result and the bytes. -/
def fileRead (f : List UInt8) (pos len : ℕ) : ℤ × List UInt8 :=
  let data := (f.drop pos).take len
  (toInt data.length, data)

/-- The position after `lseek` from the start of the file. -/
def seek (pos off : ℕ) : ℕ := if toInt off < 0 then pos else off

/-- A segment that was stored: its number, where its header is in the file, and what was stored
where. -/
structure Segment where
  index : ℕ
  header : ℕ
  vaddr : ℕ
  data : List UInt8
deriving DecidableEq

/-- `phdr`, as far as it is looked at. -/
structure Phdr where
  type : UInt32
  offset : UInt32
  vaddr : UInt32
  filesz : UInt32
  memsz : UInt32
deriving DecidableEq

/-- The program header `i`. -/
def phdr (ph : Bytes) (i : ℕ) : Phdr where
  type := UInt32.ofNat (r32 ph (i * phdrBytes))
  offset := UInt32.ofNat (r32 ph (i * phdrBytes + 4))
  vaddr := UInt32.ofNat (r32 ph (i * phdrBytes + 8))
  filesz := UInt32.ofNat (r32 ph (i * phdrBytes + 16))
  memsz := UInt32.ofNat (r32 ph (i * phdrBytes + 20))

/-- The check that is made. -/
def Phdr.TooBig (h : Phdr) : Prop :=
  h.vaddr.toNat < kAppBase ∨ kAppBase + kCodeBytes < (h.vaddr + h.memsz).toNat

instance (h : Phdr) : Decidable h.TooBig := inferInstanceAs (Decidable (_ ∨ _))

/-- The loop of `load_into` over numbered program headers, which were read from `base` on: whether
it came to its end, and what was stored. -/
def segments (f : List UInt8) (base : ℕ) : List (ℕ × Phdr) → ℕ → Bool × List Segment
  | [], _ => (true, [])
  | (i, h) :: hs, pos =>
    if h.type.toNat ≠ kPtLoad then segments f base hs pos
    else if h.TooBig then (false, [])
    else
      let pos := seek pos h.offset.toNat
      let r := fileRead f pos h.filesz.toNat
      let s := ⟨i, base + i * phdrBytes, h.vaddr.toNat, r.2⟩
      if r.1 ≠ toInt h.filesz.toNat then (false, [s])
      else
        let rest := segments f base hs (advance pos r.1)
        (rest.1, s :: rest.2)

/-- The header of the file. -/
def header (f : List UInt8) : Bytes := record (fileRead f 0 elfhdrBytes).2

/-- Where the program headers are read from. -/
def headersAt (f : List UInt8) : ℕ := seek elfhdrBytes (phoff (header f))

/-- The program headers, with their numbers. -/
def headers (f : List UInt8) : List (ℕ × Phdr) :=
  let ph := record (fileRead f (headersAt f) (phnum (header f) * phdrBytes)).2
  (List.range (phnum (header f))).map fun i => (i, phdr ph i)

/-- `load_into` gets as far as the segments. -/
def Readable (f : List UInt8) : Prop :=
  ((fileRead f 0 elfhdrBytes).1 = elfhdrBytes ∧ elfOk (header f) = true) ∧
    ¬(8 < phnum (header f) ∨ phentsize (header f) < 32) ∧
    (fileRead f (headersAt f) (phnum (header f) * phdrBytes)).1 = (phnum (header f) * phdrBytes : ℕ)

instance (f : List UInt8) : Decidable (Readable f) := inferInstanceAs (Decidable (_ ∧ _ ∧ _))

/-- Where the file is when the loop begins. -/
def start (f : List UInt8) : ℕ := headersAt f + phnum (header f) * phdrBytes

/-- `load_into`, as far as the file goes; `none` when it is turned down before the segments. -/
def load (f : List UInt8) : Option (Bool × List Segment) :=
  if Readable f then
    some (segments f (headersAt f) (headers f) (start f))
  else none

/-- All bytes of a segment are in the image. -/
def Segment.Inside (s : Segment) : Prop :=
  ∀ i < s.data.length, kAppBase ≤ (s.vaddr + i) % 2 ^ 32 ∧
    (s.vaddr + i) % 2 ^ 32 < kAppBase + kCodeBytes

/-- What a file makes the kernel store is in the image, and, if the program is loaded, the header of
each segment is where the file says. -/
structure StaysInside (f : List UInt8) : Prop where
  /-- No segment is stored outside. -/
  inside : ∀ ok segs, load f = some (ok, segs) → ∀ s ∈ segs, s.Inside
  /-- The headers are those of the file. -/
  found : ∀ segs, load f = some (true, segs) → ∀ s ∈ segs,
    s.header = phoff (header f) + s.index * phentsize (header f)

/-! ## Conditions on the file -/

/-- How many bytes of a segment are in the file. -/
def present (f : List UInt8) (pos len : ℕ) : ℕ := min len (f.length - pos)

/-- With the file at `pos`: as long as segments are read in full, what the file has of a segment
that passes the check ends in the image. -/
def Fits (f : List UInt8) : List (ℕ × Phdr) → ℕ → Prop
  | [], _ => True
  | (_, h) :: hs, pos =>
    if h.type.toNat ≠ kPtLoad then Fits f hs pos
    else h.TooBig ∨
      let pos := seek pos h.offset.toNat
      let n := present f pos h.filesz.toNat
      (n ≠ 0 → h.vaddr.toNat + n ≤ kAppBase + kCodeBytes) ∧
        (toInt n = toInt h.filesz.toNat → Fits f hs (advance pos (toInt n)))

/-- All segments pass the check and are in the file in full. -/
def Complete (f : List UInt8) : List (ℕ × Phdr) → ℕ → Prop
  | [], _ => True
  | (_, h) :: hs, pos =>
    if h.type.toNat ≠ kPtLoad then Complete f hs pos
    else ¬h.TooBig ∧
      let pos := seek pos h.offset.toNat
      let n := present f pos h.filesz.toNat
      toInt n = toInt h.filesz.toNat ∧ Complete f hs (advance pos (toInt n))

/-- If there is a segment to load, the place of the program headers is one that `lseek` takes, and
if it is not the first, they are as far apart as the kernel thinks. -/
def Headed (f : List UInt8) : Prop :=
  ∀ i h, (i, h) ∈ headers f → h.type.toNat = kPtLoad →
    phoff (header f) < 2 ^ 31 ∧ (i = 0 ∨ phentsize (header f) = phdrBytes)

variable {f : List UInt8} {base i pos len : ℕ} {h : Phdr} {hs : List (ℕ × Phdr)}

theorem length_fileRead : (fileRead f pos len).2.length = present f pos len := by
  simp only [fileRead, present, List.length_take, List.length_drop]

theorem fileRead_fst : (fileRead f pos len).1 = toInt (present f pos len) :=
  congrArg (fun n : ℕ => toInt n) length_fileRead

theorem toInt_neg_iff {n : ℕ} (h : n < 2 ^ 32) : toInt n < 0 ↔ 2 ^ 31 ≤ n := by
  rw [toInt]
  split
  · omega
  · omega

/-! ## One segment -/

/-- A segment that passes the check is in the image if and only if it ends there. -/
theorem inside_iff (hbig : ¬h.TooBig) :
    (⟨i, base, h.vaddr.toNat, (fileRead f pos len).2⟩ : Segment).Inside ↔
      (present f pos len ≠ 0 → h.vaddr.toNat + present f pos len ≤ kAppBase + kCodeBytes) := by
  have hlow : kAppBase ≤ h.vaddr.toNat := Nat.not_lt.mp (not_or.mp hbig).1
  have hword : h.vaddr.toNat < 2 ^ 32 := h.vaddr.toNat_lt
  have hbase : kAppBase = 0x40000000 := rfl
  have hbytes : kCodeBytes = 0x40000 := rfl
  rw [Segment.Inside]
  dsimp only
  rw [length_fileRead]
  generalize h.vaddr.toNat = v at hlow hword
  generalize present f pos len = n
  constructor
  · intro hall hn
    by_contra hover
    by_cases hv : v < kAppBase + kCodeBytes
    · -- the first byte behind the image is stored
      have := (hall (kAppBase + kCodeBytes - v) (by omega)).2
      rw [Nat.add_sub_cancel' hv.le, Nat.mod_eq_of_lt (by omega)] at this
      exact absurd this (lt_irrefl _)
    · have := (hall 0 (by omega)).2
      rw [Nat.add_zero, Nat.mod_eq_of_lt hword] at this
      exact hv this
  · intro hend j hj
    have := hend (by omega)
    rw [Nat.mod_eq_of_lt (by omega)]
    omega

/-! ## The loop -/

/-- **What is stored** is in the image if and only if the segments fit. -/
theorem segments_inside_iff :
    (∀ s ∈ (segments f base hs pos).2, s.Inside) ↔ Fits f hs pos := by
  induction hs generalizing pos with
  | nil => exact iff_of_true nofun trivial
  | cons x hs ih =>
    obtain ⟨i, h⟩ := x
    rw [segments, Fits]
    split
    · exact ih
    · split
      · next hbig => exact iff_of_true nofun (Or.inl hbig)
      · next hbig =>
        rw [or_iff_right hbig]
        dsimp only
        rw [fileRead_fst]
        split
        · next hshort =>
          rw [List.forall_mem_singleton, inside_iff hbig]
          exact (and_iff_left fun h => absurd h hshort).symm
        · next hfull =>
          rw [List.forall_mem_cons, inside_iff hbig, ih]
          exact and_congr_right fun _ => ⟨fun hf _ => hf, fun hf => hf (not_not.mp hfull)⟩

/-- The loop comes to its end if and only if the segments are complete, -/
theorem segments_fst_iff : (segments f base hs pos).1 = true ↔ Complete f hs pos := by
  induction hs generalizing pos with
  | nil => exact iff_of_true rfl trivial
  | cons x hs ih =>
    obtain ⟨i, h⟩ := x
    rw [segments, Complete]
    split
    · exact ih
    · split
      · next hbig => exact iff_of_false Bool.false_ne_true fun h => h.1 hbig
      · next hbig =>
        rw [and_iff_right hbig]
        dsimp only
        rw [fileRead_fst]
        split
        · next hshort => exact iff_of_false Bool.false_ne_true fun h => hshort h.1
        · next hfull => exact ih.trans (and_iff_right (not_not.mp hfull)).symm

/-- and then all that are to be loaded were stored. -/
theorem exists_segment_iff (hc : Complete f hs pos) (i p : ℕ) :
    (∃ s ∈ (segments f base hs pos).2, s.index = i ∧ s.header = p) ↔
      (∃ h, (i, h) ∈ hs ∧ h.type.toNat = kPtLoad) ∧ p = base + i * phdrBytes := by
  induction hs generalizing pos with
  | nil => exact iff_of_false (fun ⟨_, hs, _⟩ => nomatch hs) fun ⟨⟨_, h, _⟩, _⟩ => nomatch h
  | cons x hs ih =>
    obtain ⟨j, h⟩ := x
    rw [Complete] at hc
    rw [segments]
    split at hc
    · next hty =>
      rw [if_pos hty, ih hc]
      refine and_congr_left fun _ => exists_congr fun h' => and_congr_left fun hl => ?_
      rw [List.mem_cons]
      refine (or_iff_right fun he => ?_).symm
      rw [(Prod.mk.inj he).2] at hl
      exact hty hl
    · next hty =>
      rw [if_neg hty, if_neg hc.1]
      dsimp only
      rw [fileRead_fst, if_neg (not_not.mpr hc.2.1)]
      have hrest := ih hc.2.2
      simp only [List.mem_cons, exists_eq_or_imp] at hrest ⊢
      rw [hrest]
      constructor
      · rintro (⟨rfl, rfl⟩ | ⟨⟨h', hm, hl⟩, hp⟩)
        · exact ⟨⟨h, Or.inl rfl, not_not.mp hty⟩, rfl⟩
        · exact ⟨⟨h', Or.inr hm, hl⟩, hp⟩
      · rintro ⟨⟨h', he | hm, hl⟩, hp⟩
        · obtain ⟨rfl, rfl⟩ := Prod.mk.inj he
          exact Or.inl ⟨rfl, hp.symm⟩
        · exact Or.inr ⟨⟨h', hm, hl⟩, hp⟩

/-! ## The file -/

/-- A header is read from where the file says if and only if `lseek` took the place, and the headers
before it are as long as the kernel thinks. -/
theorem headersAt_add_iff (hi : i < 8) :
    headersAt f + i * phdrBytes = phoff (header f) + i * phentsize (header f) ↔
      phoff (header f) < 2 ^ 31 ∧ (i = 0 ∨ phentsize (header f) = phdrBytes) := by
  have hword : phoff (header f) < 2 ^ 32 := r32_lt _ _
  rw [headersAt, seek]
  generalize phoff (header f) = p at hword ⊢
  generalize phentsize (header f) = e
  have h52 : elfhdrBytes = 52 := rfl
  have h32 : phdrBytes = 32 := rfl
  split
  · next hneg =>
    rw [toInt_neg_iff hword] at hneg
    refine iff_of_false (fun h => ?_) fun h => by omega
    rw [h52, h32] at h
    have := Nat.zero_le (i * e)
    omega
  · next hpos =>
    rw [toInt_neg_iff hword] at hpos
    rw [and_iff_right (by omega), Nat.add_left_cancel_iff, mul_eq_mul_left_iff, or_comm,
      eq_comm (a := phdrBytes)]

/-- **Which files stay inside**: exactly those whose segments, as far as the file has them, end in
the image and, if they are complete, have their headers where the kernel looks for them. -/
theorem staysInside_iff (f : List UInt8) : StaysInside f ↔
    (Readable f → Fits f (headers f) (start f) ∧
      (Complete f (headers f) (start f) → Headed f)) := by
  by_cases hr : Readable f
  · have hload : load f = some (segments f (headersAt f) (headers f) (start f)) := if_pos hr
    have hnum : ∀ i h, (i, h) ∈ headers f → i < 8 := by
      intro i h hm
      obtain ⟨j, hj, he⟩ := List.mem_map.mp hm
      obtain ⟨rfl, -⟩ := Prod.mk.inj he
      have := List.mem_range.mp hj
      have := (not_or.mp hr.2.1).1
      omega
    have hstored : ∀ {ok segs}, load f = some (ok, segs) →
        (segments f (headersAt f) (headers f) (start f)).1 = ok ∧
          (segments f (headersAt f) (headers f) (start f)).2 = segs := by
      intro ok segs hl
      exact Prod.ext_iff.mp (Option.some.inj (hload.symm.trans hl))
    rw [forall_prop_of_true hr]
    constructor
    · intro h
      refine ⟨segments_inside_iff.mp fun s hs => h.inside _ _ hload s hs, fun hc i hd hm hty => ?_⟩
      have hok : (segments f (headersAt f) (headers f) (start f)).1 = true :=
        segments_fst_iff.mpr hc
      obtain ⟨s, hs, rfl, hh⟩ := (exists_segment_iff hc i (headersAt f + i * phdrBytes)).mpr
        ⟨⟨hd, hm, hty⟩, rfl⟩
      have hfound := h.found _ (hload.trans (congrArg some (Prod.ext hok rfl))) s hs
      exact (headersAt_add_iff (hnum _ _ hm)).mp (hh.symm.trans hfound)
    · rintro ⟨hfits, hheaded⟩
      refine ⟨fun ok segs hl s hs => ?_, fun segs hl s hs => ?_⟩
      · obtain ⟨-, rfl⟩ := hstored hl
        exact segments_inside_iff.mpr hfits s hs
      · obtain ⟨hok, rfl⟩ := hstored hl
        have hc := segments_fst_iff.mp hok
        obtain ⟨⟨hd, hm, hty⟩, hh⟩ := (exists_segment_iff hc s.index s.header).mp ⟨s, hs, rfl, rfl⟩
        rw [hh]
        exact (headersAt_add_iff (hnum _ _ hm)).mpr (hheaded hc _ _ hm hty)
  · have hload : load f = none := if_neg hr
    refine iff_of_true ⟨fun ok segs hl => ?_, fun segs hl => ?_⟩ fun h => absurd h hr
    · rw [hload] at hl
      exact absurd hl nofun
    · rw [hload] at hl
      exact absurd hl nofun

/-! ## What the kernel stores -/

section

variable {H : Type} {fs : Files} {k : Kernel H} {e : OFile} {late : Mmu H → List UInt8}
  {fd : Fin kMaxFd} {ph : Bytes}

/-- Store what was read, one segment after the other; `none` is a fault in the kernel. -/
def stores (m : Mmu H) : List Segment → Option (Mmu H)
  | [] => some m
  | s :: segs => (m.poke s.vaddr s.data).bind fun m => stores m segs

/-- The number of a field. -/
theorem toNat_field (p : ℕ) : (UInt32.ofNat (r32 ph p)).toNat = r32 ph p := by
  rw [UInt32.toNat_ofNat', Nat.mod_eq_of_lt (r32_lt ph p)]

theorem printf_mmu (s : List UInt8) : (k.printf fs s).mmu = k.mmu := by
  rw [printf_eq]
  rfl

theorem lseek_eq (off : ℕ) :
    (k.opened fd e).lseek fd off = k.opened fd { e with pos := seek e.pos off } :=
  lseek_opened e off

/-- What the loop does with one header, before it goes on. -/
def loadSegment (fs : Files) (late : Mmu H → List UInt8) (fd : Fin kMaxFd)
    (h : Phdr) (k : Kernel H) :
    Option (Bool × Kernel H) :=
  let (r, data, k) := fdRead fs (k.lseek fd h.offset.toNat) fd h.filesz.toNat
  match k.mmu.poke h.vaddr.toNat data with
  | none => none
  | some m =>
    let k := k.setMmu m
    if r ≠ toInt h.filesz.toNat then some (false, k.printf fs (late k.mmu ++ text ": short read\n"))
    else some (true, k)

/-- The loop, in terms of the header. -/
theorem loadSegments_cons (i : ℕ) (is : List ℕ) (h : Phdr) (hh : phdr ph i = h) :
    loadSegments fs late fd ph (i :: is) k =
      if h.type.toNat ≠ kPtLoad then loadSegments fs late fd ph is k
      else if h.TooBig then some (false, k.printf fs (late k.mmu ++ text ": program too big\n"))
      else (loadSegment fs late fd h k).bind fun r =>
        if r.1 then loadSegments fs late fd ph is r.2 else some r := by
  obtain ⟨ty, off, va, sz, ms⟩ := h
  obtain ⟨rfl, rfl, rfl, rfl, rfl⟩ := Phdr.mk.inj hh
  rw [loadSegments, loadSegment]
  simp only [toNat_field, Phdr.TooBig, UInt32.toNat_add]
  split
  · rfl
  · split
    · rfl
    · cases (fdRead fs (k.lseek fd (r32 ph (i * phdrBytes + 4))) fd
        (r32 ph (i * phdrBytes + 16))).2.2.mmu.poke (r32 ph (i * phdrBytes + 8))
          (fdRead fs (k.lseek fd (r32 ph (i * phdrBytes + 4))) fd (r32 ph (i * phdrBytes + 16))).2.1
          with
      | none => rfl
      | some m =>
        dsimp only
        split
        · rfl
        · rfl

/-- One segment of an open file: what was read is stored. -/
theorem loadSegment_opened {h : Phdr} {r : ℤ × List UInt8}
    (hf : ∀ pos len, fs.read e.n pos len = fileRead f pos len)
    (hr : fileRead f (seek e.pos h.offset.toNat) h.filesz.toNat = r) :
    loadSegment fs late fd h (k.opened fd e) = (k.mmu.poke h.vaddr.toNat r.2).map fun m =>
      let k := (k.setMmu m).opened fd { e with pos := advance (seek e.pos h.offset.toNat) r.1 }
      if r.1 ≠ toInt h.filesz.toNat then
        (false, k.printf fs (late m ++ text ": short read\n"))
      else (true, k) := by
  have hm : ∀ e', (k.opened fd e').mmu = k.mmu := fun _ => rfl
  rw [loadSegment, lseek_eq, fdRead_opened, hf, hr]
  dsimp only
  rw [hm]
  cases k.mmu.poke h.vaddr.toNat r.2 with
  | none => rfl
  | some m =>
    rw [Option.map_some]
    dsimp only
    split
    · rfl
    · rfl

/-- A segment that passes the check. -/
theorem segments_cons {h : Phdr} {r : ℤ × List UInt8} (hty : ¬h.type.toNat ≠ kPtLoad)
    (hbig : ¬h.TooBig)
    (hr : fileRead f (seek pos h.offset.toNat) h.filesz.toNat = r) :
    segments f base ((i, h) :: hs) pos =
      if r.1 ≠ toInt h.filesz.toNat then (false, [⟨i, base + i * phdrBytes, h.vaddr.toNat, r.2⟩])
      else ((segments f base hs (advance (seek pos h.offset.toNat) r.1)).1,
        ⟨i, base + i * phdrBytes, h.vaddr.toNat, r.2⟩ ::
          (segments f base hs (advance (seek pos h.offset.toNat) r.1)).2) := by
  rw [segments, if_neg hty, if_neg hbig]
  dsimp only
  rw [hr]

/-- **What the kernel stores**: `load_into` does to memory what the list of the segments says, and
says that it came to the end of the program headers when it did. -/
theorem loadSegments_eq (hf : ∀ pos len, fs.read e.n pos len = fileRead f pos len) (is : List ℕ) :
    (loadSegments fs late fd ph is (k.opened fd e)).map (fun r => (r.1, r.2.mmu)) =
      (stores k.mmu (segments f base (is.map fun i => (i, phdr ph i)) e.pos).2).map fun m =>
        ((segments f base (is.map fun i => (i, phdr ph i)) e.pos).1, m) := by
  induction is generalizing k e with
  | nil => rfl
  | cons i is ih =>
    rw [List.map_cons, loadSegments_cons i is (phdr ph i) rfl]
    generalize phdr ph i = h
    by_cases hty : h.type.toNat ≠ kPtLoad
    · rw [segments, if_pos hty, if_pos hty]
      exact ih hf
    · rw [if_neg hty]
      by_cases hbig : h.TooBig
      · rw [segments, if_neg hty, if_pos hbig, if_pos hbig]
        rw [Option.map_some, printf_mmu, stores, Option.map_some]
        rfl
      · obtain ⟨r, hr⟩ : ∃ r, fileRead f (seek e.pos h.offset.toNat) h.filesz.toNat = r := ⟨_, rfl⟩
        rw [if_neg hbig, loadSegment_opened hf hr, segments_cons hty hbig hr]
        by_cases hshort : r.1 ≠ toInt h.filesz.toNat
        · rw [if_pos hshort, stores]
          cases k.mmu.poke h.vaddr.toNat r.2 with
          | none => rfl
          | some m =>
            rw [Option.map_some, Option.bind_some, Option.bind_some]
            dsimp only
            rw [if_pos hshort, if_neg Bool.false_ne_true, Option.map_some, printf_mmu, stores,
              Option.map_some]
            rfl
        · rw [if_neg hshort, stores]
          cases k.mmu.poke h.vaddr.toNat r.2 with
          | none => rfl
          | some m =>
            rw [Option.map_some, Option.bind_some, Option.bind_some]
            dsimp only
            rw [if_neg hshort, if_pos rfl]
            exact ih hf

/-- A length that a read gave in full is a small one. -/
theorem advance_full {n : ℕ} (hr : (fileRead f pos len).1 = (n : ℕ)) (hpos : pos + n < 2 ^ 32) :
    advance pos (fileRead f pos len).1 = pos + n := by
  rw [hr, advance]
  split
  · rw [Int.toNat_natCast, Nat.mod_eq_of_lt hpos]
  · omega

theorem headersAt_files {n : Node} (hf : ∀ pos len, fs.read n pos len = fileRead f pos len)
    (hlen : (fileRead f 0 elfhdrBytes).1 = elfhdrBytes) : Kernel.headersAt fs n = headersAt f := by
  have hpos : advance 0 (fileRead f 0 elfhdrBytes).1 = elfhdrBytes :=
    (advance_full hlen (by decide)).trans (Nat.zero_add _)
  rw [Kernel.headersAt, hf, hpos]
  rfl

/-- **A node whose reads are those of a file** is turned down when the file is. -/
theorem readable_files {n : Node} (hf : ∀ pos len, fs.read n pos len = fileRead f pos len) :
    Kernel.Readable fs n ↔ Readable f := by
  rw [Kernel.Readable, hf]
  refine and_congr_right fun hheader => ?_
  rw [headersAt_files hf hheader.1, hf]
  rfl

/-- **A file that can be read**: `load_into` goes on to the segments with the headers of the list,
and with the file where the list begins. -/
theorem loadInto_readable {a : ExecArgs H} {n : Node} (hargc : ¬16 < a.argv.length)
    (hopen : fdOpen fs k a.path = (some fd, k.opened fd ⟨n, 0, 0⟩))
    (hf : ∀ pos len, fs.read n pos len = fileRead f pos len) (hr : Readable f) :
    loadInto fs k a = loadProgram fs a fd (header f)
      (record (fileRead f (headersAt f) (phnum (header f) * phdrBytes)).2)
      (k.opened fd ⟨n, start f, 0⟩) := by
  obtain ⟨⟨hlen, hok⟩, hnum, hwant⟩ := hr
  have hpos : advance 0 (fileRead f 0 elfhdrBytes).1 = elfhdrBytes :=
    (advance_full hlen (by decide)).trans (Nat.zero_add _)
  have hat : headersAt f = seek elfhdrBytes (phoff (header f)) := rfl
  have hword : phoff (header f) < 2 ^ 32 := r32_lt _ _
  have hstart : advance (headersAt f) (fileRead f (headersAt f) (phnum (header f) * phdrBytes)).1 =
      start f := by
    refine advance_full hwant ?_
    have h52 : elfhdrBytes = 52 := rfl
    have h32 : phdrBytes = 32 := rfl
    have h8 := (not_or.mp hnum).1
    rw [hat, seek, h52, h32]
    generalize phoff (header f) = p at hword
    split
    · omega
    · next hneg =>
      rw [toInt_neg_iff hword] at hneg
      omega
  have hh : record (fileRead f 0 elfhdrBytes).2 = header f := rfl
  rw [loadInto, if_neg hargc, hopen]
  dsimp only
  rw [fdRead_opened]
  dsimp only
  rw [hf, hpos, hh, if_neg (by simp [hlen, hok]), if_neg hnum, lseek_eq, fdRead_opened]
  dsimp only
  rw [hf, ← hat, hstart, if_neg (not_not.mpr hwant)]

end

/-! ## A file that does not -/

/-- A header whose two words add up to the end of the image, with one byte more in the file. -/
def crafted : List UInt8 :=
  [0x7F, 0x45, 0x4C, 0x46, 1, 1, 1, 0, 0, 0, 0, 0, 0, 0, 0, 0, 2, 0, 3, 0, 1,
    0, 0, 0, 0, 0, 0, 0x40,
    52, 0, 0, 0, 0, 0, 0, 0, 0, 0, 0, 0, 52, 0, 32, 0, 1, 0, 0, 0, 0, 0, 0, 0] ++
  [1, 0, 0, 0, 0, 0, 0, 0, 0xFF, 0xFF, 0x03, 0x40, 0, 0, 0, 0, 2, 0, 0, 0, 0, 0, 0, 0, 5, 0, 0, 0,
    0, 0x10, 0, 0]

theorem load_crafted : load crafted = some (true, [⟨0, 52, 0x4003FFFF, [0x7F, 0x45]⟩]) := by
  decide +kernel

/-- Its second byte goes behind the image. -/
theorem not_staysInside_crafted : ¬StaysInside crafted := by
  intro h
  have := (h.inside _ _ load_crafted _ (List.mem_singleton_self _) 1 (by decide)).2
  revert this
  decide +kernel

end Elf

end Aurisys
