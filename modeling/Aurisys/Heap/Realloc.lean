import Aurisys.Heap.Largest

/-!
# `krealloc` keeps the data

The calls write headers, and `krealloc` copies a payload. A header lies at the address of a block,
or in a free block that is being cut, so it is in no payload of a used block. Whether the last block
is kept in place or another one is found, the data are there afterwards, and nobody else's have
changed.

## Main definitions

* `Clear` — a header at an address is in no payload that is in use
* `Keeps` — no byte of a payload in use has changed

## Main results

* `Rep.kmalloc_keeps`, `Rep.kfree_keeps`
* `krealloc_preserves`
-/

namespace Aurisys

open Bytes Blocks

namespace Heap

/-- A header at `x` lies in no payload of a used block. -/
def Clear (bs : List Block) (x : ℕ) : Prop :=
  ∀ d ∈ bs, d.used = true → x ≤ d.addr ∨ d.addr + d.size ≤ x

/-- No byte of the payload of a used block has changed. -/
def Keeps (bs : List Block) (h h' : Heap) : Prop :=
  ∀ d ∈ bs, d.used = true → ∀ a, d.addr + 16 ≤ a → a < d.addr + d.size → h'.mem a = h.mem a

/-- The payload bytes of the block of a pointer. -/
def payload (h : Heap) (p : ℕ) : ℕ := h.bsize (p - headerBytes) - headerBytes

variable {lo hi n l r t x v after total bytes : ℕ} {h h' h'' : Heap} {bs pre post : List Block}
  {b : Block}

theorem keeps_refl (bs : List Block) (h : Heap) : Keeps bs h h := fun _ _ _ _ _ _ => rfl

theorem Keeps.trans (h1 : Keeps bs h h') (h2 : Keeps bs h' h'') : Keeps bs h h'' :=
  fun d hd hu a ha ha' => (h2 d hd hu a ha ha').trans (h1 d hd hu a ha ha')

theorem Keeps.of_mem_eq (hm : h''.mem = h'.mem) (hk : Keeps bs h h') : Keeps bs h h'' := by
  intro d hd hu a ha ha'
  rw [hm]
  exact hk d hd hu a ha ha'

/-! ## Header writes -/

/-- A word of a header. -/
theorem keeps_w32 (hx : Clear bs x) {p : ℕ} (hp : x ≤ p ∧ p + 4 ≤ x + 16) :
    Keeps bs h (h.setMem (w32 h.mem p v)) := by
  intro d hd hu a ha ha'
  have hclear := hx d hd hu
  exact w32_of_lt_or_ge (by omega)

theorem keeps_setSize (hx : Clear bs x) : Keeps bs h (h.setSize x v) := keeps_w32 hx (by omega)

theorem keeps_setPrevSize (hx : Clear bs x) : Keeps bs h (h.setPrevSize x v) :=
  keeps_w32 hx (by omega)

theorem keeps_setNext (hx : Clear bs x) : Keeps bs h (h.setNext x v) := keeps_w32 hx (by omega)

theorem keeps_setPrev (hx : Clear bs x) : Keeps bs h (h.setPrev x v) := keeps_w32 hx (by omega)

theorem keeps_mark (hx : Clear bs x) (used : Bool) : Keeps bs h (h.mark x used) := keeps_setSize hx

theorem keeps_setPrevIf (hx : Clear bs x) : Keeps bs h (h.setPrevIf x v) := by
  rw [setPrevIf]
  split
  · exact keeps_refl bs h
  · exact keeps_setPrev hx

theorem keeps_putTail (hl : Clear bs l) (ht : Clear bs t) (ha : Clear bs after) :
    Keeps bs h (h.putTail l t after total bytes) := by
  rw [putTail]
  refine Keeps.trans ?_ (keeps_setPrevIf ha)
  refine Keeps.trans ?_ (keeps_setNext ht)
  refine Keeps.trans ?_ (keeps_setPrev ht)
  refine Keeps.trans ?_ (keeps_setNext hl)
  refine Keeps.trans ?_ (keeps_setSize hl)
  refine Keeps.trans ?_ (keeps_mark ht false)
  exact (keeps_setSize ht).trans (keeps_setPrevSize ht)

theorem keeps_split (hl : Clear bs l) (ht : Clear bs (l + bytes)) (ha : Clear bs (h.next l)) :
    Keeps bs h (h.split l bytes) := by
  rw [split]
  split
  · exact keeps_refl bs h
  · exact keeps_putTail hl ht ha

theorem keeps_absorb (hl : Clear bs l) (ha : Clear bs (h.next r)) (hl16 : 16 ∣ l) (hr16 : 16 ∣ r)
    (hne : r ≠ l) : Keeps bs h (h.absorb l r) := by
  rw [absorb]
  generalize (h.bsize l + h.bsize r) ||| kMagic = sz
  refine Keeps.of_mem_eq (mem_addCoalesced _) ?_
  simp only [next_setNext hl16 hr16, if_neg hne, next_setSize hl16 hr16]
  refine Keeps.trans ?_ (keeps_setPrevIf ha)
  exact (keeps_setSize hl).trans (keeps_setNext hl)

/-! ## Where headers are -/

theorem clear_zero : Clear bs 0 := fun _ _ _ => .inl (Nat.zero_le _)

/-- A block has its own header. -/
theorem Rep.clear (hr : Rep lo hi h bs) (hb : b ∈ bs) : Clear bs b.addr := by
  intro d hd _
  by_contra hin
  have hb32 := (hr.tiles.bounds b hb).2.2.1
  have heq := hr.tiles.eq_of_overlap d hd b hb b.addr (by omega) (by omega) (by omega) (by omega)
  rw [heq] at hin
  omega

/-- In a free block there is no payload. -/
theorem Rep.clear_free (hr : Rep lo hi h bs) (hb : b ∈ bs) (hbu : b.used = false)
    (hx : b.addr ≤ x ∧ x < b.addr + b.size) : Clear bs x := by
  intro d hd hu
  by_contra hin
  have heq := hr.tiles.eq_of_overlap d hd b hb x (by omega) (by omega) (by omega) (by omega)
  rw [heq, hbu] at hu
  cases hu

theorem Rep.clear_headAddr (hr : Rep lo hi h bs) (hp : ∀ c ∈ post, c ∈ bs) :
    Clear bs (Heap.headAddr post 0) := by
  cases post with
  | nil => exact clear_zero
  | cons c post => exact hr.clear (hp c List.mem_cons_self)

/-! ## Allocating and freeing -/

/-- A block that is cut and handed out. -/
theorem Rep.split_mark_keeps (hr : Rep lo hi h (pre ++ b :: post)) (hbu : b.used = false)
    (hn : n ≤ b.size) :
    Keeps (pre ++ b :: post) h ((h.split b.addr n).mark b.addr true) := by
  have hmem : b ∈ pre ++ b :: post := List.mem_append_right _ List.mem_cons_self
  have hnext : h.next b.addr = Heap.headAddr post 0 := hr.header_of_append.2.2.2
  have hat := hr.clear hmem
  refine Keeps.trans ?_ (keeps_mark hat true)
  have hafter : Clear (pre ++ b :: post) (h.next b.addr) := hnext ▸
    hr.clear_headAddr fun c hc => List.mem_append_right _ (List.mem_cons_of_mem _ hc)
  refine keeps_split hat ?_ hafter
  by_cases hlt : n < b.size
  · exact hr.clear_free hmem hbu ⟨by omega, by omega⟩
  · -- A block that is taken whole ends where the next one begins.
    intro d hd hu
    obtain rfl : n = b.size := by omega
    by_contra hin
    have hd32 := hr.tiles.bounds d hd
    have h32 := (hr.tiles.bounds b hmem).2.2.1
    have heq := hr.tiles.eq_of_overlap d hd b hmem (b.addr + b.size - 1)
    have heq := heq (by omega) (by omega) (by omega) (by omega)
    rw [heq, hbu] at hu
    cases hu

/-- **`kmalloc`** changes no payload that is in use. -/
theorem Rep.kmalloc_keeps (hr : Rep lo hi h bs) (hn : 1 ≤ n) {p : ℕ}
    (hres : h.kmalloc n = some (p, h')) :
    Keeps bs h h' := by
  rw [kmalloc_eq hn] at hres
  by_cases hbig : n > kSizeMax - headerBytes
  · rw [if_pos hbig] at hres
    obtain ⟨-, rfl⟩ := Prod.mk.inj (Option.some.inj hres)
    exact keeps_refl bs _
  · rw [if_neg hbig, alignUp_request (by omega)] at hres
    rcases hr.findFit ((n + 31) / 16 * 16) with ⟨pre, b, post, rfl, hbu, hbs, hfit⟩ | ⟨hfit, -⟩
    · have h0 : b.addr ≠ 0 := hr.header_of_append.2.2.1
      rw [hfit, Option.bind_some, if_neg h0] at hres
      rw [← (Prod.mk.inj (Option.some.inj hres)).2]
      exact (hr.split_mark_keeps hbu hbs).of_mem_eq (mem_addAlloc _)
    · rw [hfit, Option.bind_some, if_pos rfl] at hres
      obtain ⟨-, rfl⟩ := Prod.mk.inj (Option.some.inj hres)
      exact keeps_refl bs _

/-- The block behind is swallowed. -/
theorem keeps_joinNext (hp : Placed lo hi pre b post) (hc : Chain h 0 0 (pre ++ b :: post))
    (hl : Clear bs b.addr) (hpost : ∀ c ∈ post, Clear bs c.addr) :
    Keeps bs h (h.joinNext b.addr) := by
  obtain ⟨-, hhd, hch⟩ := hc.around
  rw [joinNext, hhd.next]
  cases post with
  | nil =>
    rw [headAddr_nil, if_pos (Or.inl rfl)]
    exact keeps_refl bs h
  | cons c post =>
    rw [headAddr_cons]
    split
    · exact keeps_refl bs h
    · obtain ⟨hc16, hgt, -⟩ := hp.right (c := c) List.mem_cons_self
      have h32 := hp.addr
      refine keeps_absorb hl ?_ h32.1 hc16 (by omega)
      rw [hch.1.next]
      cases post with
      | nil => exact clear_zero
      | cons d post => exact hpost d (List.mem_cons_of_mem _ List.mem_cons_self)

/-- The block in front swallows. -/
theorem keeps_joinPrev (hp : Placed lo hi pre b post) (hc : Chain h 0 0 (pre ++ b :: post))
    (hpre : ∀ c ∈ pre, Clear bs c.addr) (hpost : ∀ c ∈ post, Clear bs c.addr) :
    Keeps bs h (h.joinPrev b.addr) := by
  obtain ⟨-, hhd, -⟩ := hc.around
  rw [joinPrev, hhd.prev]
  rcases List.eq_nil_or_concat' pre with rfl | ⟨pre, p, rfl⟩
  · rw [lastAddr_nil, if_pos (Or.inl rfl)]
    exact keeps_refl bs h
  · rw [lastAddr_concat]
    split
    · exact keeps_refl bs h
    · obtain ⟨hp16, -, hlt⟩ := hp.left (c := p) (List.mem_append_right _ List.mem_cons_self)
      refine keeps_absorb (hpre p (List.mem_append_right _ List.mem_cons_self)) ?_
        hp16 hp.addr.1 (by omega)
      rw [hhd.next]
      cases post with
      | nil => exact clear_zero
      | cons d post => exact hpost d List.mem_cons_self

/-- **`kfree`** changes no payload that was in use. -/
theorem Rep.kfree_keeps (hr : Rep lo hi h (pre ++ b :: post)) (hb : b.used = true) :
    Keeps (pre ++ b :: post) h (h.kfree (b.addr + 16)) := by
  obtain ⟨-, hhd, -⟩ := hr.chain.around
  have hin : h.inUse b.addr = true := (hr.header (by simp) hhd).2.1.trans hb
  have hp : Placed lo hi pre ⟨b.addr, b.size, false⟩ post :=
    ⟨hr.mark_free, hr.dvd, hr.pos, hr.hi_lt, hr.region⟩
  have hc : Chain (h.mark b.addr false).addFree 0 0 (pre ++ ⟨b.addr, b.size, false⟩ :: post) :=
    (hr.chain.mark hr.placed false).of_mem_eq (mem_addFree _)
  have hat : Clear (pre ++ b :: post) b.addr :=
    hr.clear (List.mem_append_right _ List.mem_cons_self)
  have hpre : ∀ c ∈ pre, Clear (pre ++ b :: post) c.addr :=
    fun c hc => hr.clear (List.mem_append_left _ hc)
  have hpost : ∀ c ∈ post, Clear (pre ++ b :: post) c.addr :=
    fun c hc => hr.clear (List.mem_append_right _ (List.mem_cons_of_mem _ hc))
  have hnext := keeps_joinNext hp hc hat hpost
  -- The block that is left is at the same place, in front of a part of the others.
  have hc' := hc.joinNext hp rfl
  have ht' := hp.tiles.joinRight
  obtain ⟨k, post', heq, hsuf, -⟩ := joinRight_eq_cons ⟨b.addr, b.size, false⟩ post
  rw [heq] at hc' ht'
  have hprev :=
    keeps_joinPrev (b := ⟨b.addr, k, false⟩) ⟨ht', hp.dvd, hp.pos, hp.hi_lt, hp.region⟩ hc' hpre
    fun c hc => hpost c (hsuf.subset hc)
  rw [kfree_eq hhd rfl hin]
  exact ((keeps_mark hat false).trans hnext).trans hprev

/-! ## `krealloc` -/

theorem Rep.payload_eq (hr : Rep lo hi h bs) (hb : b ∈ bs) :
    payload h (b.addr + 16) = b.size - 16 := by
  rw [payload, headerBytes, Nat.add_sub_cancel, hr.bsize_of_mem hb]

/-- What is read after a block has been moved to another. -/
theorem Rep.moveTo_keeps {c : Block} (hr : Rep lo hi h bs) (hb : b ∈ bs) (hbu : b.used = true)
    (hc : c ∈ bs)
    (hcu : c.used = true) {copy : ℕ} (hcc : copy + 16 ≤ c.size) :
    (∀ i < copy, (h.moveTo (c.addr + 16) (b.addr + 16) copy).mem (c.addr + 16 + i) =
        h.mem (b.addr + 16 + i)) ∧
      ∀ d ∈ bs, d.used = true → d ≠ c → ∀ a, d.addr + 16 ≤ a → a < d.addr + d.size →
        (h.moveTo (c.addr + 16) (b.addr + 16) copy).mem a = h.mem a := by
  have hst := hr.store hc (memcpy h.mem (c.addr + 16) h.mem (b.addr + 16) copy)
    fun x hx => memcpy_of_lt_or_ge (by omega)
  obtain ⟨pre, post, rfl⟩ := List.append_of_mem hb
  have hkeeps := hst.kfree_keeps hbu
  constructor
  · intro i hi
    rw [moveTo, hkeeps c hc hcu _ (by omega) (by omega), mem_setMem]
    exact memcpy_of_lt hi
  · intro d hd hdu hdc a ha ha'
    rw [moveTo, hkeeps d hd hdu a ha ha', mem_setMem]
    refine memcpy_of_lt_or_ge ?_
    by_contra hin
    exact hdc (hr.tiles.eq_of_overlap d hd c hc a (by omega) (by omega) (by omega) (by omega))

/-- **What `krealloc` keeps**, on the block lists. -/
theorem Rep.krealloc_keeps (hr : Rep lo hi h bs) (hb : b ∈ bs) (hbu : b.used = true) {size : ℕ}
    (hs : 1 ≤ size) : h.krealloc (b.addr + 16) size = some (0, h) ∨
      ∃ c h' bs', h.krealloc (b.addr + 16) size = some (c.addr + 16, h') ∧
      Rep lo hi h' bs' ∧ c ∈ bs' ∧
        size + 16 ≤ c.size ∧
        (∀ i < min (b.size - 16) size, h'.mem (c.addr + 16 + i) = h.mem (b.addr + 16 + i)) ∧
        ∀ d ∈ bs, d.used = true → d ≠ b → d ∈ bs' ∧
          ∀ a, d.addr + 16 ≤ a → a < d.addr + d.size → h'.mem a = h.mem a := by
  rcases hr.krealloc_cases hb hbu (Nat.one_le_iff_ne_zero.mp hs) with hres | ⟨hroom, hres⟩ |
    ⟨p, h₁, bs₁, hkm, hp, hr₁, hall, hres⟩
  · exact .inl hres
  · right
    obtain ⟨pre, post, rfl⟩ := List.append_of_mem hb
    have hat := hr.clear hb
    have hkeeps : Keeps (pre ++ b :: post) h (h.growLast b) := by
      have ha := hr.placed.addr
      refine ((keeps_setSize hat).trans (keeps_split hat ?_ ?_)).trans (keeps_mark hat true)
      · intro d hd hu
        by_contra hin
        have h32 := (hr.tiles.bounds d hd).2.2.1
        have hdb :=
          hr.tiles.eq_of_overlap d hd b hb (b.addr + b.size - 1) (by omega) (by omega) (by omega)
          (by omega)
        rw [hdb] at hin
        omega
      · rw [next_setSize ha.1 ha.1, hr.header_of_append.2.2.2]
        exact hr.clear_headAddr fun c hc => List.mem_append_right _ (List.mem_cons_of_mem _ hc)
    refine ⟨b, _, _, hres, hr.grow_last hbu, hb, hroom, fun i hi => ?_, fun d hd hu _ => ⟨hd, ?_⟩⟩
    · exact hkeeps b hb hbu _ (by omega) (by omega)
    · exact hkeeps d hd hu
  · right
    obtain ⟨c, hc, hcu, rfl, hcs, hne, hused⟩ := hall
    have hin : ∀ d ∈ bs, d.used = true → d ∈ bs₁ := fun d hd hu => (hused d hu).mpr (.inl hd)
    have hmalloc := hr.kmalloc_keeps hs hkm
    have h32 := (hr.tiles.bounds b hb).2.2.1
    have hcopy : min size (b.size - 16) + 16 ≤ c.size := by omega
    obtain ⟨hcopied, hkept⟩ := hr₁.moveTo_keeps (hin b hb hbu) hbu hc hcu hcopy
    have hst :=
      hr₁.store hc (memcpy h₁.mem (c.addr + 16) h₁.mem (b.addr + 16) (min size (b.size - 16)))
      fun x hx => memcpy_of_lt_or_ge (by omega)
    obtain ⟨pre₁, post₁, hsplit⟩ := List.append_of_mem (hin b hb hbu)
    obtain ⟨bs₂, hr₂, hrel⟩ := (hsplit ▸ hst).kfree hbu
    obtain ⟨e, he, heu, hea, hrest⟩ := hrel
    have heb : e = b := by
      refine hr₁.tiles.eq_of_addr_eq (by omega) (hsplit ▸ he) (hin b hb hbu) ?_
      omega
    have hstay : ∀ d ∈ bs₁, d.used = true → d ≠ b → d ∈ bs₂ :=
      fun d hd hu hdb => (hrest d hu).mpr ⟨hsplit ▸ hd, heb ▸ hdb⟩
    refine ⟨c, _, bs₂, hres, hr₂, hstay c hc hcu ?_, hcs, fun i hi => ?_,
      fun d hd hu hdb => ⟨?_, fun a ha ha' => ?_⟩⟩
    · rintro rfl
      exact hne c hb hbu rfl
    · rw [hcopied i (by omega)]
      exact hmalloc b hb hbu _ (by omega) (by omega)
    · exact hstay d (hin d hd hu) hu hdb
    · have hdc : d ≠ c := by
        rintro rfl
        exact hne d hd hu rfl
      rw [hkept d (hin d hd hu) hu hdc a ha ha']
      exact hmalloc d hd hu a ha ha'

/-- **`krealloc` preserves data**, after any calls on a heap of fewer than `2 ^ 31` bytes. -/
theorem krealloc_preserves (hreg : Session.Region lo hi) (mem : Bytes) {s : Session}
    (hs : Session.Runs (Session.fresh mem lo hi) s) {p size : ℕ} {req : Request}
    (hp : s.live p = some req)
    (hsize : 1 ≤ size) : ∃ q h', s.heap.krealloc p size = some (q, h') ∧
      (q ≠ 0 → (∀ i < min (payload s.heap p) size, h'.mem (q + i) = s.heap.mem (p + i)) ∧
        size ≤ payload h' q ∧ ∀ p' req', s.live p' = some req' → p' ≠ p →
          payload h' p' = payload s.heap p' ∧
            ∀ i < payload s.heap p', h'.mem (p' + i) = s.heap.mem (p' + i)) ∧
      (q = 0 → h' = s.heap) := by
  obtain ⟨bs, hr, ha⟩ := (Session.inv_fresh hreg mem).runs hs
  obtain ⟨b, hb, hbu, rfl, -⟩ := ha.find hp
  rcases hr.krealloc_keeps hb hbu hsize with hres | ⟨c, h', bs', hres, hr', hc,
    hroom, hdata, hother⟩
  · exact ⟨0, _, hres, fun h0 => absurd rfl h0, fun _ => rfl⟩
  · refine ⟨_, _, hres, fun _ => ⟨?_, ?_, ?_⟩, fun h0 => absurd h0 (Nat.succ_ne_zero _)⟩
    · rw [hr.payload_eq hb]
      exact hdata
    · rw [hr'.payload_eq hc]
      omega
    · intro p' req' hp' hne
      obtain ⟨d, hd, hdu, rfl, -⟩ := ha.find hp'
      obtain ⟨hd', hbytes⟩ := hother d hd hdu fun hdb => hne (by rw [hdb])
      rw [hr.payload_eq hd, hr'.payload_eq hd']
      exact ⟨rfl, fun i hi => hbytes _ (by omega) (by omega)⟩

/-- Ten bytes become a hundred. -/
theorem krealloc_preserves_ten : ∃ s : Session, s.live 4112 = some ⟨10, false⟩ ∧
    ∃ q h', s.heap.krealloc 4112 100 = some (q, h') ∧
      (q ≠ 0 → (∀ i < min (payload s.heap 4112) 100, h'.mem (q + i) = s.heap.mem (4112 + i)) ∧
        100 ≤ payload h' q ∧ ∀ p' req', s.live p' = some req' → p' ≠ 4112 →
          payload h' p' = payload s.heap p' ∧
            ∀ i < payload s.heap p', h'.mem (p' + i) = s.heap.mem (p' + i)) ∧
      (q = 0 → h' = s.heap) := by
  obtain ⟨s, hs, hlive⟩ := runs_kmalloc_ten
  have hl : s.live 4112 = some ⟨10, false⟩ := by rw [hlive, Function.update_self]
  exact ⟨s, hl, krealloc_preserves region_three_pages (fun _ => 0) hs hl (by decide)⟩

end Heap

end Aurisys
