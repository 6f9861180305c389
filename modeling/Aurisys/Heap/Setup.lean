import Aurisys.Heap.Chain

/-!
# The region that `heap_init` takes

The heap is to be the rest of the usable memory that the kernel is in. `heap_init` looks for it
among the e820 records, but on 32 bits: a record whose base is a multiple of `2 ^ 32` seems to begin
at zero, and one that goes past `2 ^ 32` seems to end early. The largest end wins, whoever it
belongs to. And the header of the first block has 31 bits for the size, so the region has to be
smaller than that.

## Main definitions

* `Holds`, `Seems` — a record holds the first megabyte, and it seems to on 32 bits
* `RealMemory` — the region lies in such a record, and is one free block
* `Sane` — what the records have to be for that

## Main results

* `realMemory_iff`
-/

namespace Aurisys

open Bytes

namespace Heap

namespace E820Entry

/-- One past the last byte. -/
def stop (e : E820Entry) : ℕ := e.base + e.len

/-- The end, on 32 bits. -/
def stop32 (e : E820Entry) : ℕ := (e.base % 2 ^ 32 + e.len % 2 ^ 32) % 2 ^ 32

/-- The record is usable memory with the first megabyte in it. -/
def Holds (e : E820Entry) : Prop := e.type = 1 ∧ e.base ≤ 0x100000 ∧ 0x100000 < e.stop

/-- It seems so, on 32 bits. -/
def Seems (e : E820Entry) : Prop := e.type = 1 ∧ e.base % 2 ^ 32 ≤ 0x100000 ∧ 0x100000 < e.stop32

end E820Entry

/-- The region lies in one record that holds the first megabyte, and is one free block. -/
structure RealMemory (bi : List E820Entry) (h : Heap) : Prop where
  /-- The region is in a record of usable memory. -/
  inside : ∃ e ∈ bi, e.Holds ∧ e.base ≤ h.gStart ∧ h.gEnd ≤ e.stop
  /-- The first block is at its start, -/
  head : h.gHead = h.gStart
  /-- there is no other one, -/
  single : h.next h.gHead = 0
  /-- it is free, -/
  free : h.inUse h.gHead = false
  /-- and it is all of the region. -/
  size : h.bsize h.gHead = h.gEnd - h.gStart

/-- A record seems to end far enough behind the kernel. -/
def Reaches (start : ℕ) (e : E820Entry) : Prop :=
  e.Seems ∧ start + kMinBlock < alignDown e.stop32 kAlign

/-- Where a record seems to reach behind the kernel, one that holds the first megabyte goes as far
as any that seems to, and none of these goes `2 ^ 31` bytes or more behind the kernel. Where none
seems to, one that holds the first megabyte has the 64 kilobytes that are taken for want of anything
else. -/
def Sane (start : ℕ) (bi : List E820Entry) : Prop :=
  ((∃ e ∈ bi, Reaches start e) →
    (∃ r ∈ bi, r.Holds ∧ ∀ e ∈ bi, e.Seems → alignDown e.stop32 kAlign ≤ r.stop) ∧
      ∀ e ∈ bi, e.Seems → alignDown e.stop32 kAlign < start + 2 ^ 31) ∧
  ((∀ e ∈ bi, ¬Reaches start e) → ∃ r ∈ bi, r.Holds ∧ start + 0x10000 ≤ r.stop)

variable {bi : List E820Entry} {mem : Bytes} {lo hi gEnd kernelEnd : ℕ}

theorem alignDown_kAlign {v : ℕ} (hv : v < 2 ^ 32) : alignDown v kAlign = v / 16 * 16 :=
  alignDown_eq (k := 4) hv (by omega)

theorem stop32_lt (e : E820Entry) : e.stop32 < 2 ^ 32 := Nat.mod_lt _ (Nat.two_pow_pos 32)

/-- One round of the loop: the larger end stays. -/
theorem regionEnd_cons (e : E820Entry) (bi : List E820Entry) (h16 : 16 ∣ gEnd) :
    ∃ g, regionEnd (e :: bi) gEnd = regionEnd bi g ∧ 16 ∣ g ∧ gEnd ≤ g ∧
    (e.Seems → alignDown e.stop32 kAlign ≤ g) ∧
      (g = gEnd ∨ e.Seems ∧ g = alignDown e.stop32 kAlign) := by
  have hdown := alignDown_kAlign (stop32_lt e)
  rw [regionEnd]
  by_cases htype : e.type = 1
  · rw [if_neg (not_not_intro htype)]
    change ∃ g, (if e.base % 2 ^ 32 ≤ 0x100000 ∧ 0x100000 < e.stop32 ∧ gEnd < e.stop32 then
      regionEnd bi (alignDown e.stop32 kAlign) else regionEnd bi gEnd) = regionEnd bi g ∧ _
    by_cases hcond : e.base % 2 ^ 32 ≤ 0x100000 ∧ 0x100000 < e.stop32 ∧ gEnd < e.stop32
    · rw [if_pos hcond]
      exact ⟨_, rfl, by omega, by omega, fun _ => le_rfl, .inr ⟨⟨htype, hcond.1, hcond.2.1⟩, rfl⟩⟩
    · rw [if_neg hcond]
      refine ⟨gEnd, rfl, h16, le_rfl, fun hs => ?_, .inl rfl⟩
      -- A record that seems to hold it and does not win ends no further than the one that did.
      have hle : ¬gEnd < e.stop32 := fun hlt => hcond ⟨hs.2.1, hs.2.2, hlt⟩
      omega
  · rw [if_pos htype]
    exact ⟨gEnd, rfl, h16, le_rfl, fun hs => absurd hs.1 htype, .inl rfl⟩

/-- **The loop of `heap_init`** finds the largest end that seems to do. -/
theorem regionEnd_spec (bi : List E820Entry) (h16 : 16 ∣ gEnd) :
    16 ∣ regionEnd bi gEnd ∧ gEnd ≤ regionEnd bi gEnd ∧
      (∀ e ∈ bi, e.Seems → alignDown e.stop32 kAlign ≤ regionEnd bi gEnd) ∧
      (regionEnd bi gEnd = gEnd ∨ ∃ e ∈ bi, e.Seems ∧ regionEnd bi gEnd =
        alignDown e.stop32 kAlign) := by
  induction bi generalizing gEnd with
  | nil => exact ⟨h16, le_rfl, nofun, .inl rfl⟩
  | cons e bi ih =>
    obtain ⟨g, hg, hg16, hle, hseems, hwho⟩ := regionEnd_cons e bi h16
    obtain ⟨h1, h2, h3, h4⟩ := ih hg16
    rw [hg]
    refine ⟨h1, hle.trans h2, List.forall_mem_cons.mpr ⟨fun hs => (hseems hs).trans h2, h3⟩, ?_⟩
    rcases h4 with h4 | ⟨f, hf, hfs, h4⟩
    · rw [h4]
      exact hwho.imp_right fun ⟨hs, he⟩ => ⟨e, List.mem_cons_self, hs, he⟩
    · exact .inr ⟨f, List.mem_cons_of_mem _ hf, hfs, h4⟩

theorem reaches_iff {start : ℕ} : (∃ e ∈ bi, Reaches start e) ↔
    start + kMinBlock < regionEnd bi 0 := by
  obtain ⟨-, -, hall, hwho⟩ := regionEnd_spec bi (dvd_zero 16)
  constructor
  · rintro ⟨e, he, hs, hlt⟩
    exact hlt.trans_le (hall e he hs)
  · intro hlt
    rcases hwho with h0 | ⟨e, he, hs, heq⟩
    · omega
    · exact ⟨e, he, hs, heq ▸ hlt⟩

/-! ## The first block -/

/-- **The heap that was just set up** is one free block, of a size modulo `2 ^ 31`. -/
theorem format_spec (mem : Bytes) (hlo : 16 ∣ lo) (hd : 16 ∣ hi - lo) :
    (format mem lo hi).gStart = lo ∧ (format mem lo hi).gEnd = hi ∧ (format mem lo hi).gHead = lo ∧
      (format mem lo hi).next lo = 0 ∧ (format mem lo hi).inUse lo = false ∧
        (format mem lo hi).bsize lo = (hi - lo) % 2 ^ 31 := by
  have hmod : ((hi - lo) ||| kMagic) % 2 ^ 31 = (hi - lo) % 2 ^ 31 := by
    rw [Nat.or_mod_two_pow, kMagic]
    simp
  obtain ⟨h, hform, hnext, hsize⟩ : ∃ h : Heap, format mem lo hi = h.setHead lo ∧ h.next lo = 0 ∧
      h.size lo = ((hi - lo) ||| kMagic) % 2 ^ 32 := by
    refine ⟨_, rfl, ?_, ?_⟩
    · rw [next_setSize hlo hlo, next_mark hlo hlo, next_setPrev hlo hlo,
        next_setNext hlo hlo, if_pos rfl,
        Nat.zero_mod]
    · rw [size_setSize hlo hlo, if_pos rfl]
  refine ⟨rfl, rfl, rfl, ?_, ?_, ?_⟩
  · rw [hform, next, mem_setHead]
    exact hnext
  · rw [hform, inUse_eq, size, mem_setHead, ← size, hsize]
    exact decide_eq_false (by omega)
  · rw [hform, bsize_eq, size, mem_setHead, ← size, hsize]
    omega

/-- The region, and its first block. -/
theorem realMemory_format (hlo : 16 ∣ lo) (hd : 16 ∣ hi - lo) (hmb : 0x100000 ≤ lo) :
    RealMemory bi (format mem lo hi) ↔ (∃ e ∈ bi, e.Holds ∧ hi ≤ e.stop) ∧ hi - lo < 2 ^ 31 := by
  obtain ⟨h1, h2, h3, h4, h5, h6⟩ := format_spec mem hlo hd
  constructor
  · rintro ⟨⟨e, he, hh, -, hle⟩, -, -, -, hs⟩
    rw [h3, h6, h1, h2] at hs
    rw [h2] at hle
    exact ⟨⟨e, he, hh, hle⟩, by omega⟩
  · rintro ⟨⟨e, he, hh, hle⟩, hlt⟩
    refine ⟨⟨e, he, hh, ?_, ?_⟩, ?_, ?_, ?_, ?_⟩
    · rw [h1]
      exact hh.2.1.trans hmb
    · rw [h2]
      exact hle
    · rw [h3, h1]
    · rw [h3, h4]
    · rw [h3, h5]
    · rw [h3, h6, h1, h2, Nat.mod_eq_of_lt hlt]

/-- **When `heap_init` takes real memory.** -/
theorem realMemory_iff (mem : Bytes) (hk : 0x100000 ≤ kernelEnd)
    (hk' : kernelEnd + 0x10010 ≤ 2 ^ 32)
    (hlen : bi.length ≤ 32) :
    RealMemory bi (heapInit mem kernelEnd bi) ↔ Sane (alignUp kernelEnd kAlign) bi := by
  have hup : alignUp kernelEnd kAlign = (kernelEnd + 15) / 16 * 16 :=
    alignUp_eq (k := 4) (by omega) (by omega)
  obtain ⟨h16, -, hall, hwho⟩ := regionEnd_spec bi (dvd_zero 16)
  rw [heapInit, List.take_of_length_le hlen]
  generalize hstart : alignUp kernelEnd kAlign = start at hup ⊢
  have hdvd : 16 ∣ start := by omega
  by_cases hreach : start + kMinBlock < regionEnd bi 0
  · have hex := reaches_iff.mpr hreach
    have hkb : kMinBlock = 32 := rfl
    -- The end that is taken is the one of a record that seems to hold the first megabyte.
    obtain ⟨w, hw, hws, hwe⟩ := hwho.resolve_left fun h0 => by omega
    have hlt : regionEnd bi 0 < 2 ^ 32 := by
      rw [hwe, alignDown_kAlign (stop32_lt w)]
      have := stop32_lt w
      omega
    rw [if_neg (by omega), realMemory_format hdvd (by omega) (by omega)]
    constructor
    · rintro ⟨⟨r, hr, hrh, hle⟩, hsmall⟩
      refine ⟨fun _ => ⟨⟨r, hr, hrh, fun e he hs => (hall e he hs).trans hle⟩, fun e he hs => ?_⟩,
        fun hnone => ?_⟩
      · have := hall e he hs
        omega
      · obtain ⟨e, he, her⟩ := hex
        exact absurd her (hnone e he)
    · rintro ⟨hsane, -⟩
      obtain ⟨⟨r, hr, hrh, hle⟩, hsmall⟩ := hsane hex
      refine ⟨⟨r, hr, hrh, hwe ▸ hle w hw hws⟩, ?_⟩
      have := hsmall w hw hws
      omega
  · have hnone : ∀ e ∈ bi, ¬Reaches start e := fun e he her => hreach (reaches_iff.mp ⟨e, he, her⟩)
    rw [if_pos (by omega), realMemory_format hdvd (by omega) (by omega)]
    constructor
    · rintro ⟨hr, -⟩
      exact ⟨fun ⟨e, he, her⟩ => absurd her (hnone e he), fun _ => hr⟩
    · rintro ⟨-, hr⟩
      exact ⟨hr hnone, by omega⟩

/-- The records of a machine with 128 megabytes. -/
theorem realMemory_small : RealMemory [⟨0, 0x9FC00, 1⟩, ⟨0x100000, 0x7EE0000, 1⟩]
      (heapInit (fun _ => 0) 0x200000 [⟨0, 0x9FC00, 1⟩, ⟨0x100000, 0x7EE0000, 1⟩]) ↔
    Sane (alignUp 0x200000 kAlign) [⟨0, 0x9FC00, 1⟩, ⟨0x100000, 0x7EE0000, 1⟩] :=
  realMemory_iff (fun _ => 0) (by decide) (by decide) (by decide)

/-- With three gigabytes below the devices the size does not fit in the header. With half a gigabyte
there and one above `2 ^ 32`, memory is taken that is not there. Both maps have a record with room
behind the kernel. -/
theorem not_realMemory_large :
    ((∃ e ∈ ([⟨0, 0x9FC00, 1⟩, ⟨0x100000, 0xBFEE0000, 1⟩] : List E820Entry), e.Holds ∧
          alignUp 0x200000 kAlign + kMinBlock < e.stop) ∧
        ¬RealMemory [⟨0, 0x9FC00, 1⟩, ⟨0x100000, 0xBFEE0000, 1⟩]
          (heapInit (fun _ => 0) 0x200000 [⟨0, 0x9FC00, 1⟩, ⟨0x100000, 0xBFEE0000, 1⟩])) ∧
      (∃ e ∈ ([⟨0x100000, 0x1FF00000, 1⟩, ⟨0x100000000, 0x40000000, 1⟩] : List E820Entry), e.Holds ∧
          alignUp 0x200000 kAlign + kMinBlock < e.stop) ∧
        ¬RealMemory [⟨0x100000, 0x1FF00000, 1⟩, ⟨0x100000000, 0x40000000, 1⟩]
          (heapInit (fun _ => 0) 0x200000 [⟨0x100000, 0x1FF00000, 1⟩,
            ⟨0x100000000, 0x40000000, 1⟩]) := by
  refine ⟨⟨⟨⟨0x100000, 0xBFEE0000, 1⟩, by simp, ⟨rfl, by decide, by decide⟩, by decide⟩, ?_⟩,
    ⟨⟨0x100000, 0x1FF00000, 1⟩, by simp, ⟨rfl, by decide, by decide⟩, by decide⟩, ?_⟩
  · intro hr
    have h1 : (heapInit (fun _ => 0) 0x200000 [⟨0, 0x9FC00, 1⟩, ⟨0x100000, 0xBFEE0000, 1⟩]).gEnd
        = 0xBFFE0000 := by decide +kernel
    have h2 : (heapInit (fun _ => 0) 0x200000 [⟨0, 0x9FC00, 1⟩, ⟨0x100000, 0xBFEE0000, 1⟩]).gStart
        = 0x200000 := by decide +kernel
    have hs := hr.size
    have hlt := Nat.mod_lt (Heap.size (heapInit (fun _ => 0) 0x200000
      [⟨0, 0x9FC00, 1⟩, ⟨0x100000, 0xBFEE0000, 1⟩]) (heapInit (fun _ => 0) 0x200000
        [⟨0, 0x9FC00, 1⟩, ⟨0x100000, 0xBFEE0000, 1⟩]).gHead) (Nat.two_pow_pos 31)
    rw [h1, h2, bsize_eq] at hs
    omega
  · intro hr
    have h1 : (heapInit (fun _ => 0) 0x200000
        [⟨0x100000, 0x1FF00000, 1⟩, ⟨0x100000000, 0x40000000, 1⟩]).gEnd = 0x40000000 := by
      decide +kernel
    obtain ⟨e, he, hh, -, hle⟩ := hr.inside
    rw [h1] at hle
    rcases List.mem_cons.mp he with rfl | he
    · exact absurd hle (by decide)
    · obtain rfl := List.mem_singleton.mp he
      exact absurd hh.2.1 (by decide)

end Heap

end Aurisys
