import Aurisys.User.Chain

/-!
# What the calls of the allocator do

`Good h us fl` says that the blocks `us` are handed out and the blocks `fl` are on the free list, in
this order, and that these and the tail have no byte in common. One lemma for each function says
what the two lists are afterwards, and that of the blocks handed out before no byte behind the
header has changed.

A request can be so large that a sum of 32 bits wraps. `Grows h bytes` says that what `carve` asks
the kernel for does not come out as a negative number by which the break can go down.

## Main results

* `malloc_spec`, `free_spec`
-/

namespace Aurisys

open Bytes FreeList Kernel

namespace UserHeap

variable {h h' : UserHeap} {us fl : List Span} {n bytes : ℕ}

/-! ## Sizes -/

theorem alignUp_eight (v : ℕ) : alignUp v 8 = (v + 7) % 2 ^ 32 / 8 * 8 := by
  have h1 : (v + 8 - 1) % 2 ^ 32 < 2 ^ 32 := Nat.mod_lt _ (Nat.two_pow_pos 32)
  exact Heap.alignDown_eq (v := (v + 8 - 1) % 2 ^ 32) (k := 3) h1 (by omega)

theorem blockBytes_wrapped (n : ℕ) : blockBytes n = ((n + 8) % 2 ^ 32 + 7) % 2 ^ 32 / 8 * 8 :=
  alignUp_eight _

/-- The block for a request has room for it and the header. -/
theorem blockBytes_eq (hn : n ≤ 2 ^ 32 - 16) : blockBytes n = (n + 15) / 8 * 8 := by
  rw [blockBytes_wrapped, Nat.mod_eq_of_lt (by omega), Nat.mod_eq_of_lt (by omega)]

/-- A multiple of a page, whatever wraps. -/
theorem dvd_alignUp (v : ℕ) : 4096 ∣ alignUp v 4096 := by
  have h1 : (v + 4096 - 1) % 2 ^ 32 < 2 ^ 32 := Nat.mod_lt _ (Nat.two_pow_pos 32)
  have h2 := Heap.alignDown_eq (v := (v + 4096 - 1) % 2 ^ 32) (k := 12) h1 (by omega)
  have h3 : alignUp v 4096 = (v + 4096 - 1) % 2 ^ 32 / 2 ^ 12 * 2 ^ 12 := h2
  rw [h3]
  exact Nat.dvd_mul_left _ _

/-! ## The invariant -/

/-- Where the break is, as the process sees it. -/
def top (h : UserHeap) : ℕ := kArenaVA + (h.task.brk - h.task.heapBase)

/-- The tail. -/
def tail (h : UserHeap) : Span := ⟨h.gNext, h.gEnd - h.gNext⟩

/-- The break is in the arena, and the tail ends at the break once there is one. -/
structure Room (h : UserHeap) : Prop where
  /-- The process has an arena, -/
  base : h.task.heapBase ≠ 0
  /-- of this size, -/
  ceiling : h.task.heapEnd = h.task.heapBase + kArenaBytes
  /-- which ends below `2 ^ 32`. -/
  word : h.task.heapEnd < 2 ^ 32
  /-- The break is in it, -/
  low : h.task.heapBase ≤ h.task.brk
  /-- up to its end. -/
  high : h.task.brk ≤ h.task.heapEnd
  /-- The break has moved by multiples of 8. -/
  pages : 8 ∣ h.task.brk - h.task.heapBase
  /-- The tail does not end before it begins. -/
  le : h.gNext ≤ h.gEnd
  /-- The tail begins at a multiple of 8. -/
  next_dvd : 8 ∣ h.gNext
  /-- There is no tail yet, or it ends at the break. -/
  ends : (h.gNext = 0 ∧ h.gEnd = 0 ∧ h.task.brk = h.task.heapBase) ∨
    (kArenaVA ≤ h.gNext ∧ h.gEnd = h.top)

/-- A block lies in the memory the process asked for. -/
structure IsBlock (h : UserHeap) (s : Span) : Prop where
  /-- A block begins at a multiple of 8, -/
  addr_dvd : 8 ∣ s.addr
  /-- and so does what is behind it. -/
  size_dvd : 8 ∣ s.size
  /-- There is room for its header. -/
  header : 8 ≤ s.size
  /-- It is in the arena, -/
  low : kArenaVA ≤ s.addr
  /-- in front of the break. -/
  high : s.stop ≤ h.top

/-- The blocks `us` are handed out, and the free list is `fl`. -/
structure Good (h : UserHeap) (us fl : List Span) : Prop where
  /-- The break and the tail are in order. -/
  room : Room h
  /-- All blocks are, on the list or handed out. -/
  block : ∀ s ∈ fl ++ us, IsBlock h s
  /-- A block that is handed out has its size in its header. -/
  used : ∀ b ∈ us, 16 ≤ b.size ∧ h.size b.addr = b.size
  /-- The list holds the free blocks, up to a null. -/
  free : Seg h h.gFree fl 0
  /-- No two blocks meet, and none meets the tail. -/
  separate : Separate (fl ++ h.tail :: us)

/-- Of the blocks handed out no byte behind the header has changed. -/
def Keeps (us : List Span) (h h' : UserHeap) : Prop :=
  ∀ c ∈ us, ∀ a, c.addr + 8 ≤ a → a < c.stop → h'.mem a = h.mem a

theorem keeps_refl : Keeps us h h := fun _ _ _ _ _ => rfl

theorem Keeps.trans {h₁ h₂ h₃ : UserHeap} (h1 : Keeps us h₁ h₂) (h2 : Keeps us h₂ h₃) :
    Keeps us h₁ h₃ :=
  fun c hc a h3 h4 => (h2 c hc a h3 h4).trans (h1 c hc a h3 h4)

/-- Writing headers of other blocks keeps them. -/
theorem Touches.keeps {l : List Span} (ht : Touches l h h')
    (hl : ∀ c ∈ us, ∀ s ∈ l, 8 ≤ s.size ∧ s.Apart c) : Keeps us h h' := by
  intro c hc a h1 h2
  refine ht a fun s hs => ?_
  obtain ⟨h3, h4⟩ := hl c hc s hs
  rw [Span.Apart, Span.stop, Span.stop] at h4
  rw [Span.stop] at h2
  omega

namespace Room

theorem top_le (hr : Room h) : h.top ≤ kArenaVA + kArenaBytes := by
  have := hr.high
  have := hr.ceiling
  rw [top]
  omega

theorem end_lt (hr : Room h) : h.gEnd < 2 ^ 32 := by
  have h1 := hr.top_le
  have h2 : kArenaVA + kArenaBytes < 2 ^ 32 := by decide
  rcases hr.ends with ⟨-, h3, -⟩ | ⟨-, h3⟩
  · omega
  · omega

theorem end_dvd (hr : Room h) : 8 ∣ h.gEnd := by
  rcases hr.ends with ⟨-, h3, -⟩ | ⟨-, h3⟩
  · rw [h3]
    exact Nat.dvd_zero 8
  · rw [h3, top]
    exact Nat.dvd_add (by decide) hr.pages

theorem left_eq (hr : Room h) : h.left = h.tail.size := by
  have h1 := hr.end_lt
  have h2 := hr.le
  rw [left, tail]
  dsimp only
  omega

end Room

namespace Good

theorem word (hg : Good h us fl) {s : Span} (hs : s ∈ fl ++ us) : s.stop + 8 < 2 ^ 32 := by
  have h1 := (hg.block s hs).high
  have h2 := hg.room.top_le
  have h3 : kArenaVA + kArenaBytes + 8 < 2 ^ 32 := by decide
  omega

theorem addr_ne_zero (hg : Good h us fl) {s : Span} (hs : s ∈ fl ++ us) : s.addr ≠ 0 := by
  have h1 := (hg.block s hs).low
  have h2 : 0 < kArenaVA := by decide
  omega

/-- All blocks are apart from each other. -/
theorem separate_blocks (hg : Good h us fl) : Separate (fl ++ us) :=
  (separate_cons.mp (hg.separate.perm List.perm_middle)).2

theorem nodup (hg : Good h us fl) : ((fl ++ us).map Span.addr).Nodup :=
  hg.separate_blocks.nodup fun s hs => lt_of_lt_of_le (by omega) (hg.block s hs).header

theorem nodup_free (hg : Good h us fl) : (fl.map Span.addr).Nodup := by
  have := hg.nodup
  rw [List.map_append] at this
  exact this.of_append_left

/-- The free list is shorter than a walk can be. -/
theorem length_lt (hg : Good h us fl) : fl.length < 2 ^ 32 := by
  have h1 := hg.separate_blocks.length_le kArenaVA h.top
    (fun s hs => lt_of_lt_of_le (by omega) (hg.block s hs).header)
    fun s hs => ⟨(hg.block s hs).low, (hg.block s hs).high⟩
  have h2 := hg.room.top_le
  have h3 : kArenaBytes < 2 ^ 32 := by decide
  rw [List.length_append] at h1
  omega

/-- The blocks handed out may be listed in any order. -/
theorem perm {us' : List Span} (hg : Good h us fl) (hp : us.Perm us') : Good h us' fl where
  room := hg.room
  block := fun s hs => hg.block s (((hp.append_left fl).mem_iff).mpr hs)
  used := fun b hb => hg.used b (hp.mem_iff.mpr hb)
  free := hg.free
  separate := hg.separate.perm ((hp.cons _).append_left fl)

end Good

/-- A span without a byte is apart from everything. -/
theorem separate_empty {l : List Span} {s : Span} (hs : s.size = 0) (h : Separate l) :
    Separate (s :: l) := separate_cons.mpr ⟨fun _ _ => Or.inl hs, h⟩

/-! ## The tail becomes a block -/

/-- The free list after `release_tail`. -/
def released (h : UserHeap) (fl : List Span) : List Span :=
  if h.tail.size < kMinBlock then fl else h.tail :: fl

theorem releaseTail_spec (hg : Good h us fl) : Good h.releaseTail us (released h fl) ∧
    Keeps us h h.releaseTail ∧ h.releaseTail.tail.size < 16 ∧ h.releaseTail.task = h.task ∧
      h.releaseTail.gEnd = h.gEnd ∧ (h.gNext = 0 → h.releaseTail = h) := by
  have hk : kMinBlock = 16 := rfl
  rw [releaseTail, released, hg.room.left_eq, hk]
  by_cases hsmall : h.tail.size < 16
  · rw [if_pos hsmall, if_pos hsmall]
    exact ⟨hg, keeps_refl, hsmall, rfl, rfl, fun _ => rfl⟩
  · rw [if_neg hsmall, if_neg hsmall]
    have hends : kArenaVA ≤ h.gNext ∧ h.gEnd = h.top := by
      rcases hg.room.ends with ⟨h1, h2, -⟩ | h1
      · have : h.tail.size = h.gEnd - h.gNext := rfl
        omega
      · exact h1
    have hlow : 0 < kArenaVA := by decide
    have htail : IsBlock h h.tail := by
      refine ⟨hg.room.next_dvd, Nat.dvd_sub hg.room.end_dvd hg.room.next_dvd, by omega, hends.1, ?_⟩
      rw [← hends.2]
      exact (Nat.add_sub_cancel' hg.room.le).le
    have hsep := hg.separate.perm List.perm_middle
    rw [separate_cons] at hsep
    have hne : ∀ s ∈ fl ++ us, s.addr ≠ h.tail.addr := by
      intro s hs
      have h8 := (hg.block s hs).header
      exact ((hsep.1 s hs).addr_ne (by omega) (by omega)).symm
    set t := h.tail with ht
    set k := (h.setSize t.addr t.size).setNext t.addr h.gFree with hk
    have htouch : Touches [t] h k :=
      (touches_setSize List.mem_cons_self).trans (touches_setNext List.mem_cons_self)
    have hsame : ∀ s ∈ fl ++ us, SameAt h k s.addr := by
      intro s hs
      refine htouch.sameAt (hg.block s hs).addr_dvd (List.forall_mem_singleton.mpr
        ⟨htail.addr_dvd, ?_⟩)
      exact (hne s hs).symm
    have hfree : h.gFree < 2 ^ 32 := hg.free.start_lt fun s hs => by
      have := hg.word (List.mem_append_left us hs)
      omega
    have hsize : k.size t.addr = t.size := by
      have h1 := hg.room.end_lt
      have h2 : t.size ≤ h.gEnd := Nat.sub_le _ _
      rw [hk, size_setNext htail.addr_dvd htail.addr_dvd,
        size_setSize htail.addr_dvd htail.addr_dvd,
        if_pos rfl, Nat.mod_eq_of_lt (by omega)]
    have hnext : k.next t.addr = h.gFree := by
      rw [hk, next_setNext htail.addr_dvd htail.addr_dvd, if_pos rfl, Nat.mod_eq_of_lt hfree]
    refine ⟨⟨?_, ?_, ?_, ?_, ?_⟩, ?_, ?_, rfl, rfl, fun h0 => absurd h0 (by omega)⟩
    · exact ⟨hg.room.base, hg.room.ceiling, hg.room.word, hg.room.low, hg.room.high,
        hg.room.pages, le_rfl,
        hg.room.end_dvd, Or.inr ⟨hends.1.trans hg.room.le, hends.2⟩⟩
    · rw [List.cons_append, List.forall_mem_cons]
      have hblock : ∀ s, IsBlock h s → IsBlock ((k.setFree t.addr).setTail h.gEnd h.gEnd) s :=
        fun s hs => ⟨hs.addr_dvd, hs.size_dvd, hs.header, hs.low, hs.high⟩
      exact ⟨hblock t htail, fun s hs => hblock s (hg.block s hs)⟩
    · intro b hb
      exact ⟨(hg.used b hb).1, (hsame b (List.mem_append_right _ hb)).1.trans (hg.used b hb).2⟩
    · refine ⟨rfl, hsize, ?_⟩
      show Seg _ (k.next t.addr) fl 0
      rw [hnext]
      exact hg.free.congr fun s hs => hsame s (List.mem_append_left _ hs)
    · refine Separate.perm (separate_empty (s := ⟨h.gEnd, h.gEnd - h.gEnd⟩) (Nat.sub_self _)
        (separate_cons.mpr hsep)) ?_
      have hperm : (t :: fl ++ ⟨h.gEnd, h.gEnd - h.gEnd⟩ :: us).Perm (⟨h.gEnd,
        h.gEnd - h.gEnd⟩ :: (t :: fl ++ us)) :=
        List.perm_middle
      exact hperm.symm
    · exact htouch.keeps fun c hc s hs => by
        obtain rfl := List.mem_singleton.mp hs
        exact ⟨by omega, hsep.1 c (List.mem_append_right _ hc)⟩
    · show h.gEnd - h.gEnd < 16
      omega

/-! ## A block of the list is handed out -/

/-- The tail and the task are what they were. -/
def SameEnds (h h' : UserHeap) : Prop := h'.gNext = h.gNext ∧ h'.gEnd = h.gEnd ∧ h'.task = h.task

theorem sameEnds_setLink (link : Option ℕ) (v : ℕ) : SameEnds h (h.setLink link v) := by
  cases link with
  | none => exact ⟨rfl, rfl, rfl⟩
  | some b => exact ⟨rfl, rfl, rfl⟩

theorem SameEnds.top_eq (hs : SameEnds h h') : h'.top = h.top := by rw [top, top, hs.2.2]

theorem SameEnds.tail_eq (hs : SameEnds h h') : h'.tail = h.tail := by rw [tail, tail, hs.1, hs.2.1]

theorem SameEnds.room (hs : SameEnds h h') (hr : Room h) : Room h' := by
  obtain ⟨h1, h2, h3⟩ := hs
  refine ⟨?_, ?_, ?_, ?_, ?_, ?_, ?_, ?_, ?_⟩
  · rw [h3]; exact hr.base
  · rw [h3]; exact hr.ceiling
  · rw [h3]; exact hr.word
  · rw [h3]; exact hr.low
  · rw [h3]; exact hr.high
  · rw [h3]; exact hr.pages
  · rw [h1, h2]; exact hr.le
  · rw [h1]; exact hr.next_dvd
  · rw [h1, h2, top, h3]; exact hr.ends

theorem SameEnds.block (hs : SameEnds h h') {s : Span} (hb : IsBlock h s) : IsBlock h' s :=
  ⟨hb.addr_dvd, hb.size_dvd, hb.header, hb.low, hs.top_eq ▸ hb.high⟩

theorem sameEnds_takeBlock (link : Option ℕ) (bytes : ℕ) : SameEnds h (h.takeBlock link bytes) := by
  rw [takeBlock]
  dsimp only
  split
  · exact sameEnds_setLink (h := UserHeap.setSize _ _ _) link _
  · exact sameEnds_setLink link _

/-- The two parts of a block are blocks. -/
theorem isBlock_cut {c : Span} (hc : IsBlock h c) (h8 : 8 ∣ bytes) (h16 : 16 ≤ bytes)
    (hle : bytes ≤ c.size) : IsBlock h (cut 8 bytes c).1 ∧ (∀ s ∈ (cut 8 bytes c).2, IsBlock h s) ∧
      bytes ≤ (cut 8 bytes c).1.size ∧ (cut 8 bytes c).1.addr = c.addr := by
  rw [cut]
  have hhigh := hc.high
  rw [Span.stop] at hhigh
  split
  · refine ⟨⟨hc.addr_dvd, h8, show 8 ≤ bytes by omega, hc.low, ?_⟩,
      List.forall_mem_singleton.mpr ?_, le_rfl, rfl⟩
    · show c.addr + bytes ≤ h.top
      omega
    · refine ⟨Nat.dvd_add hc.addr_dvd h8, Nat.dvd_sub hc.size_dvd h8, ?_, ?_, ?_⟩
      · show 8 ≤ c.size - bytes
        omega
      · exact hc.low.trans (Nat.le_add_right _ _)
      · show c.addr + bytes + (c.size - bytes) ≤ h.top
        omega
  · exact ⟨hc, fun _ hs => absurd hs List.not_mem_nil, hle, rfl⟩

/-- **A block of the list is handed out.** -/
theorem takeBlock_spec {pre post : List Span} {c : Span} (hg : Good h us (pre ++ c :: post))
    (h8 : 8 ∣ bytes) (h16 : 16 ≤ bytes) (hc : bytes ≤ c.size) :
    Good (h.takeBlock (linkOf pre) bytes) ((cut 8 bytes c).1 :: us)
      (pre ++ (cut 8 bytes c).2 ++ post) ∧
        Keeps us h (h.takeBlock (linkOf pre) bytes) := by
  have hends := sameEnds_takeBlock (h := h) (linkOf pre) bytes
  have hcm : c ∈ pre ++ c :: post := List.mem_append_right _ List.mem_cons_self
  have hcb := hg.block c (List.mem_append_left _ hcm)
  obtain ⟨hx, hrest, hxs, hxa⟩ := isBlock_cut hcb h8 h16 hc
  have hsep := hg.separate_blocks
  have hmid : ∀ s ∈ pre ++ post ++ us, Span.Apart c s := by
    have := hsep.perm (show (pre ++ c :: post ++ us).Perm (c :: (pre ++ post ++ us)) by
      rw [List.append_assoc, List.append_assoc]
      exact List.perm_middle)
    exact (separate_cons.mp this).1
  have hnew : bytes + 8 ≤ c.size → ∀ s ∈ pre ++ post, s.addr ≠ c.addr + bytes := by
    intro hbig s hs he
    have h1 := hmid s (List.mem_append_left _ hs)
    have h2 := (hg.block s (List.mem_append_left _ (by
      rcases List.mem_append.mp hs with h | h
      · exact List.mem_append_left _ h
      · exact List.mem_append_right _ (List.mem_cons_of_mem _ h)))).header
    rw [Span.Apart, Span.stop, Span.stop] at h1
    omega
  obtain ⟨hseg, hsize, htouch⟩ := hg.free.takeBlock
    (fun s hs => (hg.block s (List.mem_append_left _ hs)).addr_dvd) hg.nodup_free h8 (by omega) hc
    (hg.word (List.mem_append_left _ hcm)) hnew
  have hcut := separate_take 8 hc hg.separate
  set x := (cut 8 bytes c).1 with hxdef
  set r := (cut 8 bytes c).2 with hrdef
  have hblocks : ∀ s ∈ pre ++ r ++ post ++ x :: us, IsBlock h s := by
    have hb := hg.block
    simp only [List.forall_mem_append, List.forall_mem_cons] at hb ⊢
    exact ⟨⟨⟨hb.1.1, hrest⟩, hb.1.2.2⟩, hx, hb.2⟩
  -- the headers that are written are those of blocks apart from all that are handed out
  have hapart : ∀ s ∈ x :: (r ++ pre), IsBlock h s ∧ ∀ b ∈ us, s.Apart b := by
    intro s hs
    have hm : s ∈ x :: (pre ++ r ++ post) := by
      simp only [List.mem_cons, List.mem_append] at hs ⊢
      tauto
    refine ⟨hblocks s ?_, fun b hb => ?_⟩
    · simp only [List.mem_cons, List.mem_append] at hm ⊢
      tauto
    · rw [← List.cons_append] at hcut
      exact (List.pairwise_append.mp hcut).2.2 s hm b (List.mem_cons_of_mem _ hb)
  have htouch' : Touches (x :: (r ++ pre)) h (h.takeBlock (linkOf pre) bytes) := by
    intro a ha
    rw [List.forall_mem_cons] at ha
    exact htouch a (List.forall_mem_cons.mpr ⟨hxa ▸ ha.1, ha.2⟩)
  refine ⟨⟨hends.room hg.room, fun s hs => hends.block (hblocks s hs), ?_, hseg, ?_⟩, ?_⟩
  · rw [List.forall_mem_cons]
    refine ⟨⟨h16.trans hxs, hxa ▸ hsize⟩, fun b hb => ⟨(hg.used b hb).1, ?_⟩⟩
    have hb8 := hg.block b (List.mem_append_right _ hb)
    refine Eq.trans ?_ (hg.used b hb).2
    refine (htouch'.sameAt hb8.addr_dvd fun s hs => ?_).1
    obtain ⟨h1, h2⟩ := hapart s hs
    have h3 := h1.header
    have h4 := hb8.header
    exact ⟨h1.addr_dvd, (h2 b hb).addr_ne (by omega) (by omega)⟩
  · rw [hends.tail_eq]
    refine hcut.perm ?_
    rw [List.append_cons, List.append_cons _ h.tail (x :: us)]
    exact List.perm_middle.symm
  · exact htouch'.keeps fun b hb s hs => ⟨(hapart s hs).1.header, (hapart s hs).2 b hb⟩

/-! ## The tail is handed out -/

/-- What `carve` asks the kernel for. -/
def want (bytes : ℕ) : ℕ := (alignUp bytes 4096 + 4096) % 2 ^ 32

/-- As a signed number it does not take the break down. -/
def Grows (h : UserHeap) (bytes : ℕ) : Prop :=
  h.task.brk - h.task.heapBase + want bytes < 2 ^ 32

instance (h : UserHeap) (bytes : ℕ) : Decidable (Grows h bytes) :=
  inferInstanceAs (Decidable (_ < _))

theorem want_dvd (bytes : ℕ) : 8 ∣ want bytes := by
  have h1 := dvd_alignUp bytes
  rw [want]
  omega

/-- The header `malloc` writes in front of what `carve` gave it. -/
def headed (h : UserHeap) (b bytes : ℕ) : UserHeap := (h.setSize b bytes).setNext b 0

/-- The front of the tail becomes a block. -/
theorem front_spec (hg : Good h us fl) (h8 : 8 ∣ bytes) (h16 : 16 ≤ bytes)
    (hle : bytes ≤ h.tail.size) :
    Good (headed (h.setTail ((h.gNext + bytes) % 2 ^ 32) h.gEnd) h.gNext bytes)
        (⟨h.gNext, bytes⟩ :: us) fl ∧
      Keeps us h (headed (h.setTail ((h.gNext + bytes) % 2 ^ 32) h.gEnd) h.gNext bytes) ∧
      h.gNext ≠ 0 := by
  have hword := hg.room.end_lt
  have hsize : h.tail.size = h.gEnd - h.gNext := rfl
  have hwrap : (h.gNext + bytes) % 2 ^ 32 = h.gNext + bytes := Nat.mod_eq_of_lt (by omega)
  have hends : kArenaVA ≤ h.gNext ∧ h.gEnd = h.top := by
    rcases hg.room.ends with ⟨h1, h2, -⟩ | h1
    · omega
    · exact h1
  have hlow : 0 < kArenaVA := by decide
  rw [hwrap]
  set b : Span := ⟨h.gNext, bytes⟩ with hb
  set k := headed (h.setTail (h.gNext + bytes) h.gEnd) h.gNext bytes with hk
  have htouch : Touches [b] h k :=
    (touches_setSize (c := b) List.mem_cons_self).trans (touches_setNext (c :=
      b) List.mem_cons_self)
  have hdvd : 8 ∣ b.addr := hg.room.next_dvd
  have hpos : 0 < b.size := show 0 < bytes by omega
  have hblock : ∀ s, IsBlock h s → IsBlock k s :=
    fun s hs => ⟨hs.addr_dvd, hs.size_dvd, hs.header, hs.low, hs.high⟩
  have htail : h.tail = ⟨h.gNext, bytes + (h.gEnd - (h.gNext + bytes))⟩ := by
    rw [tail, Span.mk.injEq]
    omega
  have hcut : Separate (b :: ⟨h.gNext + bytes, h.gEnd - (h.gNext + bytes)⟩ :: (fl ++ us)) := by
    refine Separate.split ?_
    rw [← htail]
    exact hg.separate.perm List.perm_middle
  have hapart : ∀ s ∈ fl ++ us, b.Apart s := fun s hs =>
    (separate_cons.mp hcut).1 s (List.mem_cons_of_mem _ hs)
  refine ⟨⟨?_, ?_, ?_, ?_, ?_⟩, ?_, by omega⟩
  · refine ⟨hg.room.base, hg.room.ceiling, hg.room.word, hg.room.low, hg.room.high,
      hg.room.pages, ?_, ?_,
      Or.inr ⟨?_, hends.2⟩⟩
    · show h.gNext + bytes ≤ h.gEnd
      omega
    · exact Nat.dvd_add hg.room.next_dvd h8
    · exact hends.1.trans (Nat.le_add_right _ _)
  · have hnew : IsBlock k b := by
      refine ⟨hdvd, h8, show 8 ≤ bytes by omega, hends.1, ?_⟩
      show h.gNext + bytes ≤ h.top
      omega
    simp only [List.forall_mem_append, List.forall_mem_cons]
    have hold := fun s hs => hblock s (hg.block s hs)
    rw [List.forall_mem_append] at hold
    exact ⟨hold.1, hnew, hold.2⟩
  · rw [List.forall_mem_cons]
    refine ⟨⟨h16, ?_⟩, fun c hc => ⟨(hg.used c hc).1, ?_⟩⟩
    · rw [hk, headed, size_setNext hdvd hdvd, size_setSize hdvd hdvd, if_pos rfl]
      exact Nat.mod_eq_of_lt (by omega)
    · have hcb := hg.block c (List.mem_append_right _ hc)
      have h1 := hcb.header
      refine Eq.trans (htouch.sameAt hcb.addr_dvd (List.forall_mem_singleton.mpr ⟨hdvd, ?_⟩)).1
        (hg.used c hc).2
      exact (hapart c (List.mem_append_right _ hc)).addr_ne hpos (by omega)
  · refine hg.free.congr fun s hs => ?_
    have hsb := hg.block s (List.mem_append_left _ hs)
    have h1 := hsb.header
    refine htouch.sameAt hsb.addr_dvd (List.forall_mem_singleton.mpr ⟨hdvd, ?_⟩)
    exact (hapart s (List.mem_append_left _ hs)).addr_ne hpos (by omega)
  · refine hcut.perm ?_
    rw [List.append_cons]
    refine List.Perm.trans ?_ List.perm_middle.symm
    refine List.Perm.cons _ ?_
    rw [List.append_assoc]
    exact List.perm_middle.symm
  · refine htouch.keeps fun c hc s hs => ?_
    obtain rfl := List.mem_singleton.mp hs
    exact ⟨show 8 ≤ bytes by omega, hapart c (List.mem_append_right _ hc)⟩

/-! ## The break -/

/-- The break has gone up. -/
def grown (h : UserHeap) (n : ℕ) : UserHeap := h.setTask (setBrk h.task (h.task.brk + n))

theorem Room.toVa_eq (hr : Room h) {brk : ℕ} (h1 : h.task.heapBase ≤ brk)
    (h2 : brk ≤ h.task.heapEnd) :
    toVa (setBrk h.task brk) (setBrk h.task brk).brk = kArenaVA + (brk - h.task.heapBase) := by
  have h3 := hr.ceiling
  have h4 : kArenaVA + kArenaBytes < 2 ^ 32 := by decide
  rw [toVa, setBrk]
  dsimp only
  omega

/-- A query does nothing. -/
theorem sbrk_zero (hr : Room h) : h.sbrk 0 = (h.top, h) := by
  have hbrk : h.task.brk ≠ 0 := by
    have := hr.base
    have := hr.low
    omega
  have hlow := hr.low
  have hhigh := hr.high
  have h0 : toInt 0 = 0 := rfl
  have hself : setBrk h.task h.task.brk = h.task := rfl
  rw [sbrk, taskSbrk, if_neg hbrk, h0]
  dsimp only
  rw [add_zero, if_neg (by omega), Int.toNat_natCast, hr.toVa_eq hlow hhigh, hself]
  rfl

/-- A request for more is granted in full, or nothing changes. -/
theorem sbrk_spec (hr : Room h) (hn : n < 2 ^ 32)
    (hgrow : h.task.brk - h.task.heapBase + n < 2 ^ 32) :
    h.sbrk n = (0, h) ∨ h.task.brk + n ≤ h.task.heapEnd ∧ h.sbrk n = (h.top + n, h.grown n) := by
  have hbrk : h.task.brk ≠ 0 := by
    have := hr.base
    have := hr.low
    omega
  have hlow := hr.low
  have hhigh := hr.high
  rw [sbrk, taskSbrk, if_neg hbrk]
  dsimp only
  by_cases hfit : h.task.brk + n ≤ h.task.heapEnd
  · have hceil := hr.ceiling
    have hK : kArenaBytes < 2 ^ 31 := by decide
    have hint : toInt n = n := if_pos (by omega)
    have hnext : ((h.task.brk : ℤ) + n).toNat = h.task.brk + n := by omega
    refine Or.inr ⟨hfit, ?_⟩
    rw [hint, if_neg (by omega), hnext, hr.toVa_eq (by omega) hfit, Prod.mk.injEq, top]
    exact ⟨by omega, rfl⟩
  · refine Or.inl ?_
    rw [if_pos]
    · rfl
    · rw [toInt]
      split
      · omega
      · omega

/-- After the break has gone up by `n`, the last `n - m` bytes of it can be the tail. -/
theorem Good.grown (hg : Good h us fl) {m : ℕ} (hn : 8 ∣ n) (hm : 8 ∣ m) (hmn : m ≤ n)
    (hfit : h.task.brk + n ≤ h.task.heapEnd) :
    Good ((h.grown n).setTail (h.top + m) (h.top + n)) us fl := by
  have hlow := hg.room.low
  have htop : ((h.grown n).setTail (h.top + m) (h.top + n)).top = h.top + n := by
    show kArenaVA + (h.task.brk + n - h.task.heapBase) =
      kArenaVA + (h.task.brk - h.task.heapBase) + n
    omega
  have htop8 : 8 ∣ h.top := Nat.dvd_add (by decide) hg.room.pages
  refine ⟨⟨hg.room.base, hg.room.ceiling, hg.room.word, ?_, hfit, ?_, ?_, ?_,
    Or.inr ⟨?_, htop.symm⟩⟩, ?_,
    hg.used, hg.free.congr fun _ _ => ⟨rfl, rfl⟩, ?_⟩
  · exact hlow.trans (Nat.le_add_right _ _)
  · show 8 ∣ h.task.brk + n - h.task.heapBase
    have := hg.room.pages
    omega
  · exact Nat.add_le_add_left hmn _
  · exact Nat.dvd_add htop8 hm
  · show kArenaVA ≤ kArenaVA + (h.task.brk - h.task.heapBase) + m
    omega
  · intro s hs
    have := hg.block s hs
    refine ⟨this.addr_dvd, this.size_dvd, this.header, this.low, ?_⟩
    rw [htop]
    exact this.high.trans (Nat.le_add_right _ _)
  · refine Separate.perm (separate_cons.mpr ⟨fun s hs => ?_, hg.separate_blocks⟩)
      List.perm_middle.symm
    have := (hg.block s hs).high
    rw [Span.Apart]
    exact Or.inr (Or.inr (Or.inr (this.trans (Nat.le_add_right _ _))))

/-- **Carving.** Either nothing comes of it and the blocks are what they were, or a block does. -/
theorem carve_spec (hg : Good h us fl) (h8 : 8 ∣ bytes) (h16 : 16 ≤ bytes) (hgrow : Grows h bytes) :
    ∃ b h', h.carve bytes = (b, h') ∧ (b = 0 ∧ Good h' us fl ∧ h'.mem = h.mem ∨
      b ≠ 0 ∧ Good (headed h' b bytes) (⟨b, bytes⟩ :: us) fl ∧ Keeps us h (headed h' b bytes)) := by
  rw [carve, hg.room.left_eq]
  by_cases hleft : bytes ≤ h.tail.size
  · obtain ⟨h1, h2, h3⟩ := front_spec hg h8 h16 hleft
    rw [if_pos hleft]
    exact ⟨_, _, rfl, Or.inr ⟨h3, h1, h2⟩⟩
  · have htop : h.top ≠ 0 := by
      have : 0 < kArenaVA := by decide
      rw [top]
      omega
    rw [if_neg hleft, sbrk_zero hg.room]
    dsimp only
    rw [if_neg htop, ← want]
    have hword : want bytes < 2 ^ 32 := Nat.mod_lt _ (Nat.two_pow_pos 32)
    have hwant := want_dvd bytes
    rw [Grows] at hgrow
    generalize want bytes = w at hgrow hword hwant
    rcases sbrk_spec hg.room hword hgrow with hno | ⟨hfit, hyes⟩
    · rw [hno]
      exact ⟨0, h, rfl, Or.inl ⟨rfl, hg, rfl⟩⟩
    · have hgot : h.top + w ≠ 0 := by omega
      have hend : h.top + w ≤ kArenaVA + kArenaBytes := by
        have h1 := hg.room.ceiling
        have h2 := hg.room.low
        rw [top]
        omega
      have hlast : kArenaVA + kArenaBytes < 2 ^ 32 := by decide
      have harrived : (h.top + w + 2 ^ 32 - h.top) % 2 ^ 32 = w := by omega
      rw [hyes]
      dsimp only
      rw [if_neg hgot, harrived]
      by_cases hle : bytes ≤ w
      · have hk := hg.grown hwant (Nat.dvd_zero 8) (Nat.zero_le _) hfit
        rw [Nat.add_zero] at hk
        have hroom : ((h.grown w).setTail h.top (h.top + w)).tail.size = w :=
          Nat.add_sub_cancel_left _ _
        obtain ⟨h1, h2, h3⟩ := front_spec hk h8 h16 (hle.trans hroom.ge)
        rw [if_pos hle]
        exact ⟨_, _, rfl, Or.inr ⟨h3, h1, h2⟩⟩
      · have hk := hg.grown hwant hwant le_rfl hfit
        have hzero : ((h.grown w).setTail (h.top + w) (h.top + w)).left = 0 := by
          rw [hk.room.left_eq]
          exact Nat.sub_self (h.top + w)
        rw [if_neg hle, releaseTail, hzero, if_pos (show 0 < kMinBlock by decide)]
        exact ⟨0, _, rfl, Or.inl ⟨rfl, hk, rfl⟩⟩

/-! ## `malloc` -/

/-- The bytes of the block `malloc` looks for. -/
def request (n : ℕ) : ℕ := blockBytes (if n = 0 then 1 else n)

theorem request_spec (hn : n ≤ 2 ^ 32 - 16) :
    8 ∣ request n ∧ 16 ≤ request n ∧ n + 8 ≤ request n ∧ request n < 2 ^ 32 := by
  rw [request]
  split
  · rw [blockBytes_eq (by omega)]
    omega
  · rw [blockBytes_eq hn]
    omega

/-- The free list after a `malloc`. -/
def listAfter (h : UserHeap) (fl : List Span) (n : ℕ) : List Span :=
  ((take 8 (request n) (released h fl)).map Prod.snd).getD (released h fl)

/-- The payload of a block. -/
theorem Good.payloadOf_eq (hg : Good h us fl) {b : Span} (hb : b ∈ fl ++ us) :
    payloadOf b.addr = b.addr + 8 := by
  have := hg.word hb
  have h8 : headerBytes = 8 := rfl
  rw [Span.stop] at this
  rw [payloadOf, h8, Nat.mod_eq_of_lt (by omega)]

/-- **`malloc`**, for a size that does not wrap: null, or a block that nobody has. -/
theorem malloc_spec (hg : Good h us fl) (hn : n ≤ 2 ^ 32 - 16) (hgrow : Grows h (request n)) :
    ∃ p h', h.malloc n = some (p, h') ∧ Keeps us h h' ∧
      (p = 0 ∧ Good h' us (listAfter h fl n) ∨
        ∃ b, p = b.addr + 8 ∧ n + 8 ≤ b.size ∧ Good h' (b :: us) (listAfter h fl n)) := by
  obtain ⟨h8, h16, hroom, hword⟩ := request_spec hn
  obtain ⟨hg1, hk1, -, htask, -, -⟩ := releaseTail_spec hg
  rw [malloc]
  dsimp only
  rw [← request, listAfter]
  rw [Grows, ← htask, ← Grows] at hgrow
  generalize request n = bytes at h8 h16 hroom hword hgrow
  generalize released h fl = l at hg1
  generalize h.releaseTail = k at hg1 hk1 hgrow
  have hnull : ∀ s ∈ l, s.addr ≠ 0 := fun s hs => hg1.addr_ne_zero (List.mem_append_left _ hs)
  rcases exists_first bytes l with hsmall | ⟨pre, c, post, rfl, hpre, hc⟩
  · -- no block has room, and the tail is asked
    have hfind := findFit_append [] (p := k.gFree) (q := 0) rfl hg1.free hsmall hnull
      (Or.inl rfl) hg1.length_lt
    have hlink : linkOf ([] : List Span) = none := rfl
    rw [hlink] at hfind
    have hderef : k.deref (linkOf l) = 0 := hg1.free.deref
    rw [hfind, take_eq_none hsmall, List.nil_append, Option.bind_eq_bind, Option.bind_some, hderef,
      if_neg (not_not.mpr rfl)]
    dsimp only [Option.map_none, Option.getD_none]
    obtain ⟨b, h', hcarve, ⟨hb, hg2, hmem⟩ | ⟨hb, hg2, hk2⟩⟩ := carve_spec hg1 h8 h16 hgrow
    · rw [hcarve]
      refine ⟨0, h', if_pos hb, hk1.trans fun c _ a _ _ => congrFun hmem a, Or.inl ⟨rfl, hg2⟩⟩
    · have hp := hg2.payloadOf_eq (b := ⟨b, bytes⟩) (List.mem_append_right _ List.mem_cons_self)
      rw [hcarve]
      dsimp only
      rw [if_neg hb]
      exact ⟨_, _, rfl, hk1.trans hk2, Or.inr ⟨⟨b, bytes⟩, hp, hroom, hg2⟩⟩
  · obtain ⟨m, hseg, hm⟩ := seg_append.mp hg1.free
    obtain rfl : m = c.addr := hm.1
    have hcm : c ∈ pre ++ c :: post := List.mem_append_right _ List.mem_cons_self
    have hfind := findFit_append [] (p := k.gFree) rfl hseg hpre
      (fun s hs => hnull s (List.mem_append_left _ hs)) (Or.inr (hc.trans hm.2.1.ge))
      (lt_of_le_of_lt (by rw [List.length_append]; omega) hg1.length_lt)
    have hlink : linkOf ([] : List Span) = none := rfl
    rw [hlink] at hfind
    rw [hfind, take_append 8 hpre hc, List.nil_append, Option.bind_eq_bind,
      Option.bind_some, hseg.deref,
      if_pos (hnull c hcm)]
    obtain ⟨hg2, hk2⟩ := takeBlock_spec hg1 h8 h16 hc
    have hxb := isBlock_cut (hg1.block c (List.mem_append_left _ hcm)) h8 h16 hc
    refine ⟨_, _, rfl, hk1.trans hk2, Or.inr ⟨_, ?_, hroom.trans hxb.2.2.1, hg2⟩⟩
    rw [hxb.2.2.2]
    exact hg1.payloadOf_eq (List.mem_append_left _ hcm)

/-! ## `free` -/

theorem sameEnds_relink (before prev cur b : ℕ) : SameEnds h (h.relink before prev cur b) := by
  have hnext : SameEnds h (h.joinNext b cur).2 := by
    rw [joinNext]
    split
    · exact ⟨rfl, rfl, rfl⟩
    · exact ⟨rfl, rfl, rfl⟩
  have hprev : SameEnds (h.joinNext b cur).2 ((h.joinNext b cur).2.joinPrev before prev b).2.2 := by
    rw [joinPrev]
    split
    · exact ⟨rfl, rfl, rfl⟩
    · exact ⟨rfl, rfl, rfl⟩
  rw [relink]
  dsimp only
  split
  · exact ⟨hprev.1.trans hnext.1, hprev.2.1.trans hnext.2.1, hprev.2.2.trans hnext.2.2⟩
  · exact ⟨hprev.1.trans hnext.1, hprev.2.1.trans hnext.2.1, hprev.2.2.trans hnext.2.2⟩

/-- Two blocks that touch are a block. -/
theorem IsBlock.join {s t : Span} (hs : IsBlock h s) (ht : IsBlock h t) (htouch : s.stop = t.addr) :
    IsBlock h ⟨s.addr, s.size + t.size⟩ := by
  refine ⟨hs.addr_dvd, Nat.dvd_add hs.size_dvd ht.size_dvd, ?_, hs.low, ?_⟩
  · exact hs.header.trans (Nat.le_add_right _ _)
  · have h1 := ht.high
    rw [Span.stop] at h1 htouch
    show s.addr + (s.size + t.size) ≤ h.top
    omega

/-- The block of a payload. -/
theorem Good.blockOf_eq (hg : Good h us fl) {b : Span} (hb : b ∈ fl ++ us) :
    blockOf (b.addr + 8) = b.addr := by
  have := hg.word hb
  have h8 : headerBytes = 8 := rfl
  rw [Span.stop] at this
  rw [blockOf, h8]
  omega

/-- **`free`**: the block goes back to the list, at its place. -/
theorem free_spec {c : Span} (hg : Good h (c :: us) fl) : ∃ h', h.free (c.addr + 8) = some h' ∧
    Keeps us h h' ∧ Good h' us (give c fl) := by
  obtain ⟨pre, post, rfl, hpre, hpost⟩ := exists_place c fl
  have hcm : c ∈ pre ++ post ++ c :: us := List.mem_append_right _ List.mem_cons_self
  obtain ⟨m, h1, h2⟩ := seg_append.mp hg.free
  have hm : m = 0 ∨ c.addr ≤ m := by
    cases post with
    | nil => exact Or.inl h2
    | cons d ds => exact Or.inr (h2.1 ▸ hpost d rfl)
  have hperm : (pre ++ post ++ c :: us).Perm (pre ++ c :: post ++ us) := by
    rw [List.append_assoc, List.append_assoc]
    exact List.perm_middle.append_left pre
  have hall : ∀ s ∈ pre ++ c :: post ++ us, s ∈ pre ++ post ++ c :: us :=
    fun s hs => hperm.mem_iff.mpr hs
  have hall' : ∀ s ∈ pre ++ c :: post, s ∈ pre ++ post ++ c :: us :=
    fun s hs => hall s (List.mem_append_left _ hs)
  have hsep : Separate (c :: (pre ++ post ++ h.tail :: us)) := by
    refine hg.separate.perm ?_
    rw [List.append_cons]
    refine List.perm_middle.trans ?_
    rw [← List.append_cons]
  have hapart : ∀ s ∈ pre ++ c :: post, ∀ b ∈ us, s.Apart b := by
    have := (hg.separate_blocks).perm hperm
    exact (List.pairwise_append.mp this).2.2
  have hlen : pre.length < 2 ^ 32 := by
    have := hg.length_lt
    rw [List.length_append] at this
    omega
  have hfind := findPlace_append (b := c.addr) [] h1 hpre
    (fun s hs => hg.addr_ne_zero (List.mem_append_left _ (List.mem_append_left _ hs))) hm hlen
  have hnd : ((pre ++ c :: post).map Span.addr).Nodup := by
    have := (hperm.map Span.addr).nodup_iff.mp hg.nodup
    rw [List.map_append] at this
    exact this.of_append_left
  obtain ⟨hseg, htouch⟩ := h1.relink h2 (hg.used c List.mem_cons_self).2
    (fun s hs => (hg.block s (hall' s hs)).addr_dvd) hnd (fun s hs => hg.addr_ne_zero (hall' s hs))
    fun s hs => by
      have := hg.word (hall' s hs)
      omega
  have hends := sameEnds_relink (h := h) (lastTwo pre).1 (lastTwo pre).2 m c.addr
  have hfree : h.free (c.addr + 8) = some (h.relink (lastTwo pre).1 (lastTwo pre).2 m c.addr) := by
    have hlast : lastTwo [] = (0, 0) := rfl
    have hsize := hg.used c List.mem_cons_self
    have hk : kMinBlock = 16 := rfl
    rw [hlast, List.nil_append] at hfind
    rw [free, if_neg (Nat.succ_ne_zero _), hg.blockOf_eq hcm]
    dsimp only
    rw [hsize.2, hk, if_neg (by omega), hfind]
    rfl
  refine ⟨_, hfree, htouch.keeps fun b hb s hs => ?_, hends.room hg.room, fun s hs => ?_,
    fun b hb => ?_, ?_, ?_⟩
  · exact ⟨(hg.block s (hall' s hs)).header, hapart s hs b hb⟩
  · refine hends.block ?_
    rw [give_append hpre hpost] at hs
    rcases List.mem_append.mp hs with hs | hs
    · refine forall_place (P := IsBlock h) (fun s t => IsBlock.join) ?_ ?_ ?_ s hs
      · exact hg.block c hcm
      · exact fun s hs => hg.block s (List.mem_append_left _ (List.mem_append_left _ hs))
      · exact fun s hs => hg.block s (List.mem_append_left _ (List.mem_append_right _ hs))
    · exact hg.block s (List.mem_append_right _ (List.mem_cons_of_mem _ hs))
  · have hbm : b ∈ c :: us := List.mem_cons_of_mem _ hb
    have hbb := hg.block b (List.mem_append_right _ hbm)
    have h8 := hbb.header
    refine ⟨(hg.used b hbm).1,
      Eq.trans (htouch.sameAt hbb.addr_dvd fun s hs => ?_).1 (hg.used b hbm).2⟩
    have hsb := hg.block s (hall' s hs)
    have h9 := hsb.header
    exact ⟨hsb.addr_dvd, (hapart s hs b hb).addr_ne (by omega) (by omega)⟩
  · rw [give_append hpre hpost]
    exact hseg
  · rw [give_append hpre hpost, hends.tail_eq]
    exact separate_place hsep

/-! ## Payloads -/

/-- What is written behind the header of a block that is handed out disturbs nothing. -/
theorem Good.setMem {c : Span} (mem : Bytes) (hg : Good h (c :: us) fl)
    (hm : ∀ a, a < c.addr + 8 ∨ c.stop ≤ a → mem a = h.mem a) :
    Good (h.setMem mem) (c :: us) fl ∧ Keeps us h (h.setMem mem) := by
  have hcm : c ∈ fl ++ c :: us := List.mem_append_right _ List.mem_cons_self
  have hsame : ∀ s ∈ fl ++ c :: us, SameAt h (h.setMem mem) s.addr := by
    intro s hs
    have h8 := (hg.block s hs).header
    have hbytes : ∀ i < 8, mem (s.addr + i) = h.mem (s.addr + i) := by
      intro i hi
      refine hm _ ?_
      by_cases he : s = c
      · rw [he]
        omega
      · have := hg.separate_blocks.apart hs hcm he
        have h9 := (hg.block c hcm).header
        rw [Span.Apart, Span.stop, Span.stop] at this
        rw [Span.stop]
        omega
    refine ⟨r32_congr fun i hi => hbytes i (by omega), r32_congr fun i hi => ?_⟩
    rw [Nat.add_assoc]
    exact hbytes (4 + i) (by omega)
  have hends : SameEnds h (h.setMem mem) := ⟨rfl, rfl, rfl⟩
  refine ⟨⟨hends.room hg.room, fun s hs => hends.block (hg.block s hs),
    fun b hb => ⟨(hg.used b hb).1, ?_⟩,
    ?_, hends.tail_eq ▸ hg.separate⟩, ?_⟩
  · exact (hsame b (List.mem_append_right _ hb)).1.trans (hg.used b hb).2
  · exact hg.free.congr fun s hs => hsame s (List.mem_append_left _ hs)
  · intro b hb a h1 h2
    refine hm a ?_
    have hsep := hg.separate_blocks.perm List.perm_middle
    have := (separate_cons.mp hsep).1 b (List.mem_append_right _ hb)
    rw [Span.Apart, Span.stop, Span.stop] at this
    rw [Span.stop] at h2 ⊢
    omega

/-- **`calloc`**: as `malloc`, and the bytes are zero. -/
theorem calloc_spec (hg : Good h us fl) {size : ℕ} (hn : n * size ≤ 2 ^ 32 - 16)
    (hgrow : Grows h (request (n * size))) :
    ∃ p h', h.calloc n size = some (p, h') ∧ Keeps us h h' ∧
      (p = 0 ∧ Good h' us (listAfter h fl (n * size)) ∨ ∃ b, p = b.addr + 8 ∧
        n * size + 8 ≤ b.size ∧
        Good h' (b :: us) (listAfter h fl (n * size)) ∧ ∀ i < n * size, h'.mem (p + i) = 0) := by
  have hfit : ¬(n ≠ 0 ∧ size > 0xFFFFFFFF / n) := by
    rintro ⟨h0, hbig⟩
    have h1 := (Nat.div_lt_iff_lt_mul (Nat.pos_of_ne_zero h0)).mp hbig
    rw [Nat.mul_comm] at h1
    omega
  obtain ⟨p, h', hm, hk, hres⟩ := malloc_spec hg hn hgrow
  rw [calloc, if_neg hfit]
  dsimp only
  rw [hm, Option.bind_eq_bind, Option.bind_some]
  rcases hres with ⟨rfl, hg'⟩ | ⟨b, rfl, hb, hg'⟩
  · exact ⟨0, h', if_pos rfl, hk, Or.inl ⟨rfl, hg'⟩⟩
  · obtain ⟨hg2, hk2⟩ := hg'.setMem (memset h'.mem (b.addr + 8) 0 (n * size)) fun a ha => by
      rw [Span.stop] at ha
      exact memset_of_lt_or_ge (by omega)
    refine ⟨_, _, if_neg (Nat.succ_ne_zero _), hk.trans hk2,
      Or.inr ⟨b, rfl, hb, hg2, fun i hi => ?_⟩⟩
    exact if_pos (by omega)

/-! ## `realloc` -/

/-- The loop copies, when nothing wraps and the two ranges share no byte. -/
theorem copyBytes_eq {m : Bytes} {d s k : ℕ} (hd : d + k ≤ 2 ^ 32) (hs : s + k ≤ 2 ^ 32)
    (hapart : d + k ≤ s ∨ s + k ≤ d) : copyBytes m d s k = memcpy m d m s k := by
  induction k with
  | zero =>
    funext a
    exact (memcpy_of_lt_or_ge (by omega)).symm
  | succ k ih =>
    rw [copyBytes, ih (by omega) (by omega) (by omega), Nat.mod_eq_of_lt (by omega),
      Nat.mod_eq_of_lt (by omega)]
    funext a
    by_cases ha : a = d + k
    · rw [ha, Function.update_self, memcpy_of_lt (by omega), memcpy_of_lt_or_ge (by omega)]
    · rw [Function.update_of_ne ha, memcpy, memcpy]
      by_cases hin : d ≤ a ∧ a < d + k
      · rw [if_pos hin, if_pos (by omega)]
      · rw [if_neg hin, if_neg (by omega)]

/-- In order and with gaps, the list stays so when a block comes back. -/
theorem Good.spaced_give {c : Span} (hg : Good h (c :: us) fl) (hs : Spaced fl) :
    Spaced (give c fl) := by
  have hsep := hg.separate_blocks.perm List.perm_middle
  have hc := (hg.block c (List.mem_append_right _ List.mem_cons_self)).header
  refine hs.give (fun s hs => (separate_cons.mp hsep).1 s (List.mem_append_left _ hs)) (by omega) ?_
  intro s hs
  have := (hg.block s (List.mem_append_left _ hs)).header
  omega

/-- **Moving a block**: null, and it stays; or a new block with as much of it as both have. -/
theorem moveBlock_spec {c : Span} (hg : Good h (c :: us) fl) (hn : n ≤ 2 ^ 32 - 16)
    (hgrow : Grows h (request n)) : ∃ p h', h.moveBlock (c.addr + 8) n = some (p,
      h') ∧ Keeps us h h' ∧
      (p = 0 ∧ Good h' (c :: us) (listAfter h fl n) ∧ Keeps [c] h h' ∨
        ∃ b, p = b.addr + 8 ∧ n + 8 ≤ b.size ∧ Good h' (b :: us) (give c (listAfter h fl n)) ∧
          (Spaced (listAfter h fl n) → Spaced (give c (listAfter h fl n))) ∧
          ∀ i < min n (c.size - 8), h'.mem (p + i) = h.mem (c.addr + 8 + i)) := by
  have hcm : c ∈ fl ++ c :: us := List.mem_append_right _ List.mem_cons_self
  obtain ⟨p, k, hm, hk, hres⟩ := malloc_spec hg hn hgrow
  have hkc : Keeps [c] h k :=
    fun b hb => hk b (List.mem_cons.mpr (Or.inl (List.mem_singleton.mp hb)))
  have hku : Keeps us h k := fun b hb => hk b (List.mem_cons_of_mem _ hb)
  rw [moveBlock]
  dsimp only
  rw [hm, hg.blockOf_eq hcm, Option.bind_eq_bind, Option.bind_some]
  rcases hres with ⟨rfl, hg'⟩ | ⟨b, rfl, hb, hg'⟩
  · exact ⟨0, k, if_pos rfl, hku, Or.inl ⟨rfl, hg', hkc⟩⟩
  · have hbm : b ∈ listAfter h fl n ++ b :: c :: us := List.mem_append_right _ List.mem_cons_self
    have hcu : c ∈ b :: c :: us := List.mem_cons_of_mem _ List.mem_cons_self
    have hcm' : c ∈ listAfter h fl n ++ b :: c :: us := List.mem_append_right _ hcu
    have hbw := hg'.word hbm
    have hcw := hg'.word hcm'
    have hcs := hg'.used c hcu
    rw [Span.stop] at hbw hcw
    have h8 : headerBytes = 8 := rfl
    have hlive : (c.size + 2 ^ 32 - headerBytes) % 2 ^ 32 = c.size - 8 := by
      rw [h8]
      omega
    rw [hcs.2, hlive]
    dsimp only
    rw [if_neg (Nat.succ_ne_zero _)]
    have hcopy : (if n < c.size - 8 then n else c.size - 8) = min n (c.size - 8) := by
      split
      · omega
      · omega
    have hapart : b.Apart c := by
      have hsep := hg'.separate_blocks.perm List.perm_middle
      exact (separate_cons.mp hsep).1 c (List.mem_append_right _ List.mem_cons_self)
    rw [Span.Apart, Span.stop, Span.stop] at hapart
    rw [hcopy, copyBytes_eq (by omega) (by omega) (by omega)]
    obtain ⟨hg2, hk2⟩ := hg'.setMem
      (memcpy k.mem (b.addr + 8) k.mem (c.addr + 8) (min n (c.size - 8))) fun a ha => by
        rw [Span.stop] at ha
        exact memcpy_of_lt_or_ge (by omega)
    have hg2' := hg2.perm (List.Perm.swap c b us)
    obtain ⟨h', hfree, hk3, hg3⟩ := free_spec hg2'
    refine ⟨b.addr + 8, h', by rw [hfree]; rfl, ?_,
      Or.inr ⟨b, rfl, hb, hg3, hg2'.spaced_give, fun i hi => ?_⟩⟩
    · exact hku.trans (Keeps.trans (fun d hd => hk2 d (List.mem_cons_of_mem _ hd))
        fun d hd => hk3 d (List.mem_cons_of_mem _ hd))
    · have h1 := hk3 b List.mem_cons_self (b.addr + 8 + i) (by omega) (by rw [Span.stop]; omega)
      have h2 := hkc c List.mem_cons_self (c.addr + 8 + i) (by omega) (by rw [Span.stop]; omega)
      exact h1.trans ((memcpy_of_lt hi).trans h2)

/-- What a `realloc` is to do with its block: grow or shrink it in place. -/
def InPlace (h : UserHeap) (c : Span) (n : ℕ) : Prop :=
  c.stop = h.gNext ∧ c.addr + blockBytes n ≤ h.gEnd

/-- **Growing or shrinking in place.** -/
theorem resize_spec {c : Span} (hg : Good h (c :: us) fl) (hn : n ≤ 2 ^ 32 - 16) (hn0 : n ≠ 0)
    (hin : InPlace h c n) :
    Good ((h.setSize c.addr (blockBytes n)).setTail (c.addr + blockBytes n) h.gEnd)
        (⟨c.addr, blockBytes n⟩ :: us) fl ∧
      Keeps (c :: us) h ((h.setSize c.addr (blockBytes n)).setTail (c.addr + blockBytes n)
        h.gEnd) := by
  obtain ⟨hlast, hle⟩ := hin
  have hsize := blockBytes_eq hn
  have h8 : 8 ∣ blockBytes n := by
    rw [hsize]
    exact Nat.dvd_mul_left _ _
  have h16 : 16 ≤ blockBytes n := by omega
  generalize blockBytes n = w at hle h8 h16
  have hcm : c ∈ fl ++ c :: us := List.mem_append_right _ List.mem_cons_self
  have hcb := hg.block c hcm
  have hc := hg.used c List.mem_cons_self
  have hends : kArenaVA ≤ h.gNext ∧ h.gEnd = h.top := by
    rcases hg.room.ends with ⟨h1, -, -⟩ | h1
    · rw [Span.stop] at hlast
      omega
    · exact h1
  have hword := hg.room.end_lt
  set k := (h.setSize c.addr w).setTail (c.addr + w) h.gEnd with hk
  have htouch : Touches [c] h k := touches_setSize List.mem_cons_self
  have hsep : Separate (c :: (fl ++ us)) :=
    (hg.separate_blocks).perm List.perm_middle
  have hapart : ∀ s ∈ fl ++ us, c.Apart s := (separate_cons.mp hsep).1
  have hsame : ∀ s ∈ fl ++ us, IsBlock h s → SameAt h k s.addr := by
    intro s hs hsb
    have h9 := hsb.header
    refine htouch.sameAt hsb.addr_dvd (List.forall_mem_singleton.mpr ⟨hcb.addr_dvd, ?_⟩)
    exact (hapart s hs).addr_ne (by omega) (by omega)
  have hold : ∀ s ∈ fl ++ us, IsBlock h s := by
    intro s hs
    refine hg.block s ?_
    rcases List.mem_append.mp hs with h | h
    · exact List.mem_append_left _ h
    · exact List.mem_append_right _ (List.mem_cons_of_mem _ h)
  have hblock : ∀ s, IsBlock h s → IsBlock k s :=
    fun s hs => ⟨hs.addr_dvd, hs.size_dvd, hs.header, hs.low, hs.high⟩
  -- the block and the tail, as one, are cut at another place
  have hcut : Separate (⟨c.addr, w⟩ :: ⟨c.addr + w, h.gEnd - (c.addr + w)⟩ :: (fl ++ us)) := by
    refine Separate.split ?_
    have hone : w + (h.gEnd - (c.addr + w)) = c.size + h.tail.size := by
      have h1 := hg.room.le
      have h2 : h.tail.size = h.gEnd - h.gNext := rfl
      rw [Span.stop] at hlast
      omega
    have htail : (⟨c.addr + c.size, h.tail.size⟩ : Span) = h.tail := by
      rw [← Span.stop, hlast]
      rfl
    rw [hone]
    refine Separate.join ?_
    rw [htail]
    refine hg.separate.perm ?_
    rw [List.append_cons]
    refine List.perm_middle.trans (List.Perm.cons _ ?_)
    rw [List.append_assoc]
    exact List.perm_middle
  refine ⟨⟨⟨hg.room.base, hg.room.ceiling, hg.room.word, hg.room.low,
    hg.room.high, hg.room.pages, hle,
    Nat.dvd_add hcb.addr_dvd h8, Or.inr ⟨?_, hends.2⟩⟩, ?_, ?_, ?_, ?_⟩, ?_⟩
  · exact hcb.low.trans (Nat.le_add_right _ _)
  · have hnew : IsBlock k ⟨c.addr, w⟩ := by
      refine ⟨hcb.addr_dvd, h8, show 8 ≤ w by omega, hcb.low, ?_⟩
      show c.addr + w ≤ h.top
      omega
    have hall := fun s hs => hblock s (hold s hs)
    simp only [List.forall_mem_append, List.forall_mem_cons] at hall ⊢
    exact ⟨hall.1, hnew, hall.2⟩
  · rw [List.forall_mem_cons]
    refine ⟨⟨h16, ?_⟩, fun b hb => ⟨(hg.used b (List.mem_cons_of_mem _ hb)).1, ?_⟩⟩
    · show (h.setSize c.addr w).size c.addr = w
      rw [size_setSize hcb.addr_dvd hcb.addr_dvd, if_pos rfl]
      exact Nat.mod_eq_of_lt (by omega)
    · have hbm : b ∈ fl ++ us := List.mem_append_right _ hb
      exact (hsame b hbm (hold b hbm)).1.trans (hg.used b (List.mem_cons_of_mem _ hb)).2
  · refine hg.free.congr fun s hs => ?_
    have hsm : s ∈ fl ++ us := List.mem_append_left _ hs
    exact hsame s hsm (hold s hsm)
  · refine hcut.perm ?_
    rw [List.append_cons]
    refine List.Perm.trans ?_ List.perm_middle.symm
    refine List.Perm.cons _ ?_
    rw [List.append_assoc]
    exact List.perm_middle.symm
  · have hus : Keeps us h k := htouch.keeps fun b hb s hs => by
      obtain rfl := List.mem_singleton.mp hs
      exact ⟨hcb.header, hapart b (List.mem_append_right _ hb)⟩
    refine List.forall_mem_cons.mpr ⟨fun a h1 _ => htouch a ?_, hus⟩
    exact List.forall_mem_singleton.mpr (Or.inr h1)

/-- **`realloc`** of a block, to a size that is not zero: null, and it stays; in place; or moved. -/
theorem realloc_spec {c : Span} (hg : Good h (c :: us) fl) (hn : n ≤ 2 ^ 32 - 16) (hn0 : n ≠ 0)
    (hgrow : Grows h (request n)) (hwrap : c.stop = h.gNext → c.addr + blockBytes n < 2 ^ 32) :
    ∃ p h', h.realloc (c.addr + 8) n = some (p, h') ∧ Keeps us h h' ∧
      (p = 0 ∧ ¬InPlace h c n ∧ Good h' (c :: us) (listAfter h fl n) ∧ Keeps [c] h h' ∨
        ∃ b fl', p = b.addr + 8 ∧ n + 8 ≤ b.size ∧ Good h' (b :: us) fl' ∧
          (InPlace h c n ∧ fl' = fl ∨ ¬InPlace h c n ∧ (Spaced (listAfter h fl n) → Spaced fl')) ∧
          ∀ i < min n (c.size - 8), h'.mem (p + i) = h.mem (c.addr + 8 + i)) := by
  have hcm : c ∈ fl ++ c :: us := List.mem_append_right _ List.mem_cons_self
  have hc := hg.used c List.mem_cons_self
  have hend : (c.addr + h.size c.addr) % 2 ^ 32 = c.stop := by
    have := hg.word hcm
    rw [Span.stop] at this
    rw [hc.2, Nat.mod_eq_of_lt (by omega), Span.stop]
  have hmove : ¬InPlace h c n → h.realloc (c.addr + 8) n = h.moveBlock (c.addr + 8) n := by
    intro hin
    rw [realloc, if_neg (Nat.succ_ne_zero _), if_neg hn0, hg.blockOf_eq hcm]
    dsimp only
    rw [hend]
    split
    · next hlast =>
      rw [Nat.mod_eq_of_lt (hwrap hlast), if_neg (fun hle => hin ⟨hlast, hle⟩)]
    · rfl
  by_cases hin : InPlace h c n
  · obtain ⟨hg', hk⟩ := resize_spec hg hn hn0 hin
    have hres : h.realloc (c.addr + 8) n = some (c.addr + 8,
        (h.setSize c.addr (blockBytes n)).setTail (c.addr + blockBytes n) h.gEnd) := by
      rw [realloc, if_neg (Nat.succ_ne_zero _), if_neg hn0, hg.blockOf_eq hcm]
      dsimp only
      rw [hend, if_pos hin.1, Nat.mod_eq_of_lt (hwrap hin.1), if_pos hin.2]
    refine ⟨_, _, hres, fun b hb => hk b (List.mem_cons_of_mem _ hb),
      Or.inr ⟨⟨c.addr, blockBytes n⟩, fl, rfl, ?_, hg', Or.inl ⟨hin, rfl⟩, fun i hi => ?_⟩⟩
    · show n + 8 ≤ blockBytes n
      rw [blockBytes_eq hn]
      omega
    · exact hk c List.mem_cons_self _ (by omega) (by rw [Span.stop]; omega)
  · obtain ⟨p, h', hm, hk, hres⟩ := moveBlock_spec hg hn hgrow
    refine ⟨p, h', (hmove hin).trans hm, hk, ?_⟩
    rcases hres with ⟨hp, hg', hkc⟩ | ⟨b, hp, hb, hg', hspaced, hcopy⟩
    · exact Or.inl ⟨hp, hin, hg', hkc⟩
    · exact Or.inr ⟨b, _, hp, hb, hg', Or.inr ⟨hin, hspaced⟩, hcopy⟩

/-! ## Sizes that wrap -/

/-- The size of the block wraps to 0 or 8, and there is nothing of which so little could be handed
out. -/
def Refused (h : UserHeap) (n : ℕ) : Prop :=
  2 ^ 32 - 16 < n ∧ n ≤ 2 ^ 32 - 8 ∧ h.gNext = 0 ∨
    2 ^ 32 - 8 < n ∧ h.gFree = 0 ∧ h.left < 8 ∧ h.task.heapEnd < h.task.brk + 8192

/-- The requests that are answered as they should be. -/
def Sized (h : UserHeap) (n : ℕ) : Prop :=
  n ≤ 2 ^ 32 - 16 ∧ Grows h (request n) ∨ Refused h n

instance (h : UserHeap) (n : ℕ) : Decidable (Refused h n) := inferInstanceAs (Decidable (_ ∨ _))
instance (h : UserHeap) (n : ℕ) : Decidable (Sized h n) := inferInstanceAs (Decidable (_ ∨ _))

/-- Without a break that ever moved there are no blocks. -/
theorem Good.nil_of_gNext (hg : Good h us fl) (h0 : h.gNext = 0) : fl = [] := by
  have hlow : 0 < kArenaVA := by decide
  rw [List.eq_nil_iff_forall_not_mem]
  intro s hs
  have hsb := hg.block s (List.mem_append_left _ hs)
  have h1 := hsb.low
  have h2 := hsb.high
  have h3 := hsb.header
  rcases hg.room.ends with ⟨-, -, h4⟩ | ⟨h4, -⟩
  · rw [top, h4, Span.stop] at h2
    omega
  · omega

/-- With an empty list the tail is asked. -/
theorem malloc_nil (hg : Good h us []) (hleft : h.left < 16) (h0 : n ≠ 0) :
    h.malloc n = if (h.carve (blockBytes n)).1 = 0 then some (0, (h.carve (blockBytes n)).2)
      else some (payloadOf (h.carve (blockBytes n)).1,
        headed (h.carve (blockBytes n)).2 (h.carve (blockBytes n)).1 (blockBytes n)) := by
  have hrel : h.releaseTail = h := if_pos hleft
  have hfind : h.findFit (blockBytes n) (2 ^ 32) (linkOf []) = some (linkOf ([] ++ [])) :=
    findFit_append [] (p := h.gFree) (q := 0) rfl hg.free nofun nofun
      (Or.inl rfl) (Nat.two_pow_pos 32)
  have hlink : linkOf ([] ++ []) = none := rfl
  have hlink' : linkOf [] = none := rfl
  have hderef : h.deref none = 0 := hg.free
  rw [hlink, hlink'] at hfind
  rw [malloc]
  dsimp only
  rw [if_neg h0, hrel, hfind, Option.bind_eq_bind, Option.bind_some, hderef,
    if_neg (not_not.mpr rfl)]
  rfl

/-- **They are refused.** -/
theorem malloc_refused (hg : Good h us fl) (hn : n < 2 ^ 32) (hr : Refused h n) :
    h.malloc n = some (0, h) := by
  rcases hr with ⟨h1, h2, h0⟩ | ⟨h1, h0, hleft, hfull⟩
  · obtain rfl := hg.nil_of_gNext h0
    have hend : h.gEnd = 0 := by
      have hlow : 0 < kArenaVA := by decide
      rcases hg.room.ends with ⟨-, h3, -⟩ | ⟨h3, -⟩
      · exact h3
      · omega
    have hleft : h.left = 0 := by
      rw [left, h0, hend]
      rfl
    have hbytes : blockBytes n = 0 := by
      rw [blockBytes_wrapped]
      omega
    have hcarve : h.carve 0 = (0, h) := by
      rw [carve, if_pos (Nat.zero_le _), Nat.add_zero, h0, hend]
      cases h
      subst h0 hend
      rfl
    rw [malloc_nil hg (by omega) (by omega), hbytes, hcarve]
    rfl
  · have hnil : fl = [] := by
      cases fl with
      | nil => rfl
      | cons b bs =>
        have := hg.addr_ne_zero (List.mem_append_left us (List.mem_cons_self (a := b) (l := bs)))
        exact absurd (hg.free.1.symm.trans h0) this
    subst hnil
    have hbytes : blockBytes n = 8 := by
      rw [blockBytes_wrapped]
      omega
    have htop : h.top ≠ 0 := by
      have : 0 < kArenaVA := by decide
      rw [top]
      omega
    have hwant : (alignUp 8 4096 + 4096) % 2 ^ 32 = 8192 := by decide
    have hsbrk : h.sbrk 8192 = (0, h) := by
      have hused : h.task.brk - h.task.heapBase + 8192 < 2 ^ 32 := by
        have h3 := hg.room.high
        have h4 := hg.room.ceiling
        have h5 : kArenaBytes + 8192 < 2 ^ 32 := by decide
        omega
      refine (sbrk_spec hg.room (by omega) hused).resolve_right fun h => ?_
      omega
    have hcarve : h.carve 8 = (0, h) := by
      rw [carve, if_neg (by omega), sbrk_zero hg.room]
      dsimp only
      rw [if_neg htop, hwant, hsbrk]
      rfl
    rw [malloc_nil hg (by omega) (by omega), hbytes, hcarve]
    rfl

/-! ## Order -/

/-- The tail does not come in front of other blocks and stay there: it is too small to become a
block, the list is empty, the tail is handed out whole, or the one block there is. -/
def Settled (h : UserHeap) (n : ℕ) : Prop :=
  h.left < kMinBlock ∨ h.gFree = 0 ∨ request n = h.left ∨
    h.left < request n ∧ h.next h.gFree = 0 ∧ h.size h.gFree = request n

instance (h : UserHeap) (n : ℕ) : Decidable (Settled h n) := inferInstanceAs (Decidable (_ ∨ _))

theorem spaced_getD {l : List Span} (hs : Spaced l) :
    Spaced (((take 8 bytes l).map Prod.snd).getD l) := by
  cases ht : take 8 bytes l with
  | none => exact hs
  | some r => exact hs.take (x := r.1) ht

/-- The pointer of the list says whether it is empty. -/
theorem Good.eq_nil_of_seg {l : List Span} (hg : Good h us fl) (hl : ∀ s ∈ l, s ∈ fl)
    (hs : Seg h 0 l 0) :
    l = [] := by
  cases l with
  | nil => rfl
  | cons b bs =>
    exact absurd hs.1.symm (hg.addr_ne_zero (List.mem_append_left us (hl b List.mem_cons_self)))

/-- **Then the list stays in order**, with gaps. -/
theorem spaced_listAfter (hg : Good h us fl) (hset : Settled h n) (hs : Spaced fl) :
    Spaced (listAfter h fl n) := by
  rw [Settled, hg.room.left_eq] at hset
  rw [listAfter, released]
  by_cases hsmall : h.tail.size < kMinBlock
  · rw [if_pos hsmall]
    exact spaced_getD hs
  · rw [if_neg hsmall]
    rcases hset with h1 | h1 | h1 | ⟨h1, h2, h3⟩
    · exact absurd h1 hsmall
    · have hseg := hg.free
      rw [h1] at hseg
      obtain rfl := hg.eq_nil_of_seg (fun _ h => h) hseg
      exact spaced_getD (List.pairwise_singleton _ _)
    · have htake : take 8 (request n) ([] ++ h.tail :: fl) = _ := take_append 8 nofun h1.le
      rw [cut, if_neg (by omega), List.nil_append] at htake
      rw [htake]
      exact hs
    · cases fl with
      | nil =>
        rw [take_eq_none (List.forall_mem_singleton.mpr h1)]
        exact List.pairwise_singleton _ _
      | cons b bs =>
        obtain ⟨hb, hsize, hseg⟩ := hg.free
        rw [hb] at h2 h3
        rw [h2] at hseg
        obtain rfl := hg.eq_nil_of_seg (fun _ h => List.mem_cons_of_mem _ h) hseg
        have hle : request n ≤ b.size := (h3.symm.trans hsize).le
        have htake : take 8 (request n) ([h.tail] ++ b :: []) = _ :=
          take_append 8 (List.forall_mem_singleton.mpr h1) hle
        rw [cut, if_neg (by omega), List.singleton_append] at htake
        rw [htake]
        exact List.pairwise_singleton _ _

end UserHeap

end Aurisys
