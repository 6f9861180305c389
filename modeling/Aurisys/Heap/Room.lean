import Aurisys.Heap.Safety

/-!
# When a frame is found

`kframe_alloc_n` looks at one place in each free block, the first page behind the header. In front
of a frame that does not begin there must be room for a block, so a block whose header ends 16 bytes
before a page has no place at that page. It may have one at the next, where the walk does not look.

How many bytes are wanted is computed on 32 bits. From `2 ^ 20` pages on this is far less than what
the pages take, and then any block that is found is too small: no block is as large as that.

## Main definitions

* `HasRoom` — a block has a place for so many pages
* `FindsRoom`, `NeverTooLittle` — what is expected of `kframe_alloc_n`

## Main results

* `findsRoom_iff`
* `neverTooLittle_iff`
-/

namespace Aurisys

open Bytes Blocks

namespace Heap

/-- The pages have a place at `a` in a block. What is in front of the header of the frame is
nothing, or a block. -/
def HasRoom (b : Block) (pages a : ℕ) : Prop :=
  4096 ∣ a ∧ (a = b.addr + 16 ∨ b.addr + 48 ≤ a) ∧ a + pages * 4096 ≤ b.addr + b.size

/-- A frame is found when a free block has a place for it. -/
def FindsRoom (h : Heap) (bs : List Block) (pages : ℕ) : Prop :=
  (∃ b ∈ bs, b.used = false ∧ ∃ a, HasRoom b pages a) →
    ∃ p h', h.kframeAllocN pages = some (p, h') ∧ p ≠ 0

/-- A frame that is found is on a page, and its block has room for the pages. -/
def NeverTooLittle (h : Heap) (pages : ℕ) : Prop :=
  ∀ p h', h.kframeAllocN pages = some (p, h') → p ≠ 0 →
    4096 ∣ p ∧ pages * 4096 + headerBytes ≤ h'.bsize (p - headerBytes)

variable {lo hi pages want : ℕ} {h h' : Heap} {bs bs' : List Block} {b : Block} {s : Session}

/-- There is one block list of a heap. -/
theorem Chain.unique (hsize : ∀ b ∈ bs, b.size < 2 ^ 31 ∧ 2 ∣ b.size)
    (hsize' : ∀ b ∈ bs', b.size < 2 ^ 31 ∧ 2 ∣ b.size) (hpos : ∀ b ∈ bs, b.addr ≠ 0)
    (hpos' : ∀ b ∈ bs', b.addr ≠ 0) {p p' : ℕ} (hc : Chain h p 0 bs) (hc' : Chain h p' 0 bs')
    (hhead : headAddr bs 0 = headAddr bs' 0) : bs = bs' := by
  induction bs generalizing bs' p p' with
  | nil =>
    cases bs' with
    | nil => rfl
    | cons c cs => exact absurd hhead.symm (hpos' c (List.mem_cons_self ..))
  | cons b bs ih =>
    cases bs' with
    | nil => exact absurd hhead (hpos b (List.mem_cons_self ..))
    | cons c cs =>
      rw [headAddr_cons, headAddr_cons] at hhead
      obtain ⟨hhd, hrest⟩ := hc
      obtain ⟨hhd', hrest'⟩ := hc'
      have hb := hsize b (List.mem_cons_self ..)
      have hc := hsize' c (List.mem_cons_self ..)
      have heq : b = c := by
        have h₁ := hhd.bsize_eq hb.1 hb.2
        have h₂ := hhd'.bsize_eq hc.1 hc.2
        have h₃ := hhd.inUse_eq hb.2
        have h₄ := hhd'.inUse_eq hc.2
        rw [← hhead] at h₂ h₄
        obtain ⟨addr, size, used⟩ := b
        obtain ⟨addr', size', used'⟩ := c
        simp only [Block.mk.injEq]
        exact ⟨hhead, h₁.symm.trans h₂, h₃.symm.trans h₄⟩
      have htail := ih (fun d hd => hsize d (List.mem_cons_of_mem _ hd))
        (fun d hd => hsize' d (List.mem_cons_of_mem _ hd))
        (fun d hd => hpos d (List.mem_cons_of_mem _ hd))
        (fun d hd => hpos' d (List.mem_cons_of_mem _ hd)) hrest hrest'
        (hhd.next.symm.trans ((congrArg h.next hhead).trans hhd'.next))
      rw [heq, htail]

theorem Rep.sizes (hr : Rep lo hi h bs) (hb : b ∈ bs) :
    b.size < 2 ^ 31 ∧ 2 ∣ b.size ∧ b.addr ≠ 0 := by
  obtain ⟨h₁, h₂, -, h₄⟩ := hr.tiles.bounds b hb
  have h₅ := hr.region
  have h₆ := hr.pos
  exact ⟨by omega, by omega, by omega⟩

/-- The blocks of a represented heap are those that its headers say. -/
theorem Rep.eq_of_isBlockList (hr : Rep lo hi h bs) (hl : Session.IsBlockList lo hi h bs') :
    bs' = bs := by
  have hsizes : ∀ b ∈ bs', b.size < 2 ^ 31 ∧ 2 ∣ b.size ∧ b.addr ≠ 0 := by
    intro b hb
    obtain ⟨h₁, h₂, -, h₄⟩ := hl.tiles.bounds b hb
    have h₅ := hr.region
    have h₆ := hr.pos
    exact ⟨by omega, by omega, by omega⟩
  refine Chain.unique (fun b hb => ⟨(hsizes b hb).1, (hsizes b hb).2.1⟩)
    (fun b hb => ⟨(hr.sizes hb).1, (hr.sizes hb).2.1⟩) (fun b hb => (hsizes b hb).2.2)
    (fun b hb => (hr.sizes hb).2.2) hl.linked hr.chain ?_
  rw [hr.headAddr, ← hr.gHead, hl.gHead]

/-! ## Where there is room -/

/-- **The first page is as good as any**, but for a header that ends 16 bytes in front of it. -/
theorem takes_iff (hb : 16 ∣ b.addr) :
    Takes b (pages * 4096 + 16) ↔ (∃ a, HasRoom b pages a) ∧ ¬4096 ∣ b.addr + 32 := by
  have hle := le_firstPage b
  have hdvd := dvd_firstPage b
  have hfirst : ∀ a, 4096 ∣ a → b.addr + 16 ≤ a → firstPage b ≤ a := by
    rintro _ ⟨k, rfl⟩ ha
    rw [firstPage, Nat.mul_comm 4096 k]
    exact Nat.mul_le_mul_right _ (by omega)
  constructor
  · rintro ⟨hplace, hroom⟩
    refine ⟨⟨firstPage b, hdvd, hplace, by omega⟩, fun hn => ?_⟩
    have := hfirst _ hn (by omega)
    omega
  · rintro ⟨⟨a, ha, hplace, hroom⟩, hn⟩
    have hmin := hfirst a ha (by omega)
    have hne : firstPage b ≠ b.addr + 32 := fun he => hn (he ▸ hdvd)
    exact ⟨by omega, by omega⟩

/-- **A frame is found** just when the walk takes a free block. -/
theorem Rep.found_iff (hr : Rep lo hi h bs) (h0 : pages ≠ 0) :
    (∃ p h', h.kframeAllocN pages = some (p, h') ∧ p ≠ 0) ↔
      ∃ b ∈ bs, b.used = false ∧ Takes b ((pages * 4096 + 16) % 2 ^ 32) := by
  rcases hr.kframeAllocN_takes h0 with ⟨hres, hnone⟩ | ⟨pre, b, post, rfl, hbu, ht, hres⟩
  · constructor
    · rintro ⟨p, h', hp, hne⟩
      rw [hres] at hp
      simp only [Option.some.injEq, Prod.mk.injEq] at hp
      exact absurd hp.1.symm hne
    · rintro ⟨b, hb, hbu, ht⟩
      exact absurd ht (hnone b hb hbu)
  · have hle := le_firstPage b
    exact ⟨fun _ => ⟨b, by simp, hbu, ht⟩, fun _ => ⟨_, _, hres, by omega⟩⟩

/-- **`kframe_alloc_n` finds room** unless all the free blocks that have some start 32 bytes in
front of a page. -/
theorem findsRoom_iff {mem : Bytes} (hreg : Session.Region lo hi)
    (hs : Session.Runs (Session.fresh mem lo hi) s)
    (hl : Session.IsBlockList lo hi s.heap bs) (hpos : 1 ≤ pages)
    (hlt : pages * 4096 + 16 < 2 ^ 32) :
    FindsRoom s.heap bs pages ↔
      ((∃ b ∈ bs, b.used = false ∧ ∃ a, HasRoom b pages a) →
        ∃ b ∈ bs, b.used = false ∧ (∃ a, HasRoom b pages a) ∧ ¬4096 ∣ b.addr + 32) := by
  obtain ⟨bs', hr, -⟩ := (Session.inv_fresh hreg mem).runs hs
  obtain rfl := hr.eq_of_isBlockList hl
  rw [FindsRoom, hr.found_iff (by omega), Nat.mod_eq_of_lt hlt]
  refine imp_congr_right fun _ => exists_congr fun b => and_congr_right fun hb => ?_
  rw [takes_iff (hr.tiles.dvd_addr hr.dvd b hb)]

/-- On three pages from 4096 on. -/
theorem findsRoom_three_pages :
    FindsRoom (format (fun _ => 0) 4096 16384) [⟨4096, 12288, false⟩] 1 ↔
      ((∃ b ∈ [(⟨4096, 12288, false⟩ : Block)], b.used = false ∧ ∃ a, HasRoom b 1 a) →
        ∃ b ∈ [(⟨4096, 12288, false⟩ : Block)], b.used = false ∧ (∃ a, HasRoom b 1 a) ∧
          ¬4096 ∣ b.addr + 32) :=
  findsRoom_iff (s := Session.fresh (fun _ => 0) 4096 16384) region_three_pages .refl
    (Session.isBlockList_of_rep (Session.rep_format region_three_pages _)) (by decide) (by decide)

/-- A heap of two pages and 32 bytes has a place for a frame, and none is found. -/
theorem frame_missed : ∃ s : Session, Session.Runs (Session.fresh (fun _ => 0) 4064 12288) s ∧ ∃ bs,
    Session.IsBlockList 4064 12288 s.heap bs ∧ ¬FindsRoom s.heap bs 1 := by
  have hreg : Session.Region 4064 12288 :=
    ⟨by decide, by decide, by decide, by decide, by decide, by decide⟩
  refine ⟨_, .refl, _, Session.isBlockList_of_rep (Session.rep_format hreg _), fun hf => ?_⟩
  obtain ⟨p, h', hp, hne⟩ := hf ⟨⟨4064, 8224, false⟩, by simp, rfl, 8192, by decide, by decide,
    by decide⟩
  have hnull : ((format (fun _ => 0) 4064 12288).kframeAllocN 1).map Prod.fst = some 0 := by
    decide +kernel
  change (format (fun _ => 0) 4064 12288).kframeAllocN 1 = some (p, h') at hp
  rw [hp, Option.map_some] at hnull
  exact hne (Option.some.inj hnull)

/-! ## What is found -/

theorem bsize_lt (h : Heap) (b : ℕ) : h.bsize b < 2 ^ 31 := by
  rw [bsize_eq]
  omega

/-- **No more is promised than there is**, unless the number of bytes wraps and a block is found. -/
theorem neverTooLittle_iff {mem : Bytes} (hreg : Session.Region lo hi)
    (hs : Session.Runs (Session.fresh mem lo hi) s) (hl : Session.IsBlockList lo hi s.heap bs)
    (hlt : pages < 2 ^ 32) :
    NeverTooLittle s.heap pages ↔ pages * 4096 + 16 < 2 ^ 32 ∨
      ∀ b ∈ bs, b.used = false → ¬Takes b ((pages * 4096 + 16) % 2 ^ 32) := by
  obtain ⟨bs', hr, -⟩ := (Session.inv_fresh hreg mem).runs hs
  obtain rfl := hr.eq_of_isBlockList hl
  by_cases hfits : pages * 4096 + 16 < 2 ^ 32
  · refine iff_of_true (fun p h' hp hne => ?_) (.inl hfits)
    rcases hr.kframeAllocN hfits with hres | ⟨p', h'', bs', hres, -, hal, hr', hall⟩
    · rw [hp] at hres
      simp only [Option.some.injEq, Prod.mk.injEq] at hres
      exact absurd hres.1 hne
    · rw [hp] at hres
      simp only [Option.some.injEq, Prod.mk.injEq] at hres
      obtain ⟨rfl, rfl⟩ := hres
      obtain ⟨c, hc, -, rfl, hroom, -⟩ := hall
      obtain ⟨pre, post, rfl⟩ := List.append_of_mem hc
      refine ⟨hal, ?_⟩
      rw [headerBytes, Nat.add_sub_cancel, hr'.header_of_append.1]
      exact hroom
  · have h0 : pages ≠ 0 := by omega
    rw [or_iff_right hfits]
    constructor
    · intro hn b hb hbu ht
      obtain ⟨p, h', hp, hne⟩ := (hr.found_iff h0).mpr ⟨b, hb, hbu, ht⟩
      have hroom := (hn p h' hp hne).2
      have hsize := bsize_lt h' (p - headerBytes)
      omega
    · intro hnone p h' hp hne
      obtain ⟨b, hb, hbu, ht⟩ := (hr.found_iff h0).mp ⟨p, h', hp, hne⟩
      exact absurd ht (hnone b hb hbu)

/-- On three pages from 4096 on, for one page. -/
theorem neverTooLittle_three_pages :
    NeverTooLittle (format (fun _ => 0) 4096 16384) 1 ↔ 1 * 4096 + 16 < 2 ^ 32 ∨
      ∀ b ∈ [(⟨4096, 12288, false⟩ : Block)], b.used = false →
      ¬Takes b ((1 * 4096 + 16) % 2 ^ 32) :=
  neverTooLittle_iff (s := Session.fresh (fun _ => 0) 4096 16384) region_three_pages .refl
    (Session.isBlockList_of_rep (Session.rep_format region_three_pages _)) (by decide)

/-- `2 ^ 20` pages are found in a heap of three. -/
theorem frame_too_little : ¬NeverTooLittle (format (fun _ => 0) 4096 16384) (2 ^ 20) := by
  intro hn
  have hfound : ((format (fun _ => 0) 4096 16384).kframeAllocN (2 ^ 20)).map Prod.fst =
      some 8192 := by
    decide +kernel
  obtain ⟨⟨p, h'⟩, hp, rfl⟩ := Option.map_eq_some_iff.mp hfound
  have hroom := (hn _ h' hp (by decide)).2
  have hsize := bsize_lt h' (8192 - headerBytes)
  omega

end Heap

end Aurisys
