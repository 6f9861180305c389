import Aurisys.Heap.Frames
import Aurisys.Lib.Usage

/-!
# What the heap says it has

`heap_stats` ends on every heap that the calls can reach, and the number in use that it reports is
the payload bytes of the used blocks. An allocation adds the payload of one block to it, and a
release takes the payload of one block away.

## Main definitions

* `usedBytes`, `largestFree` — the two sums over a block list
* `KHeap.room` — the payload bytes of the block of a pointer

## Main results

* `Rep.heapStats`
* `usedBytes_allocated`, `usedBytes_released`
-/

namespace Aurisys

open Bytes Blocks

namespace Heap

/-- The payload bytes of the used blocks. -/
def usedBytes (bs : List Block) : ℕ := ((bs.filter Block.used).map fun b => b.size - 16).sum

/-- The largest payload among free blocks and `best`. -/
def largestFree (best : ℕ) (bs : List Block) : ℕ :=
  (bs.filter fun b => !b.used).foldl (fun best b => max best (b.size - 16)) best

theorem usedBytes_cons_used {b : Block} (bs : List Block) (hb : b.used = true) :
    usedBytes (b :: bs) = b.size - 16 + usedBytes bs := by
  rw [usedBytes, List.filter_cons_of_pos hb, List.map_cons, List.sum_cons, usedBytes]

theorem usedBytes_cons_free {b : Block} (bs : List Block) (hb : b.used = false) :
    usedBytes (b :: bs) = usedBytes bs := by
  rw [usedBytes, List.filter_cons_of_neg (by simp [hb]), usedBytes]

/-- The payloads fit in the region. -/
theorem usedBytes_le {g m hi : ℕ} {bs : List Block} : ∀ {lo : ℕ}, Tiles g m lo hi bs →
    usedBytes bs ≤ hi - lo := by
  induction bs with
  | nil => exact fun _ => Nat.zero_le _
  | cons b bs ih =>
    intro lo ht
    have h1 := ih ht.2.2.2
    have h2 := ht.2.2.2.le
    cases hb : b.used with
    | true =>
      rw [usedBytes_cons_used bs hb]
      omega
    | false =>
      rw [usedBytes_cons_free bs hb]
      omega

section

variable {lo hi : ℕ} {h h' : Heap} {bs bs' : List Block} {p n : ℕ}

/-! ## The two walks -/

/-- **The walk of `heap_stats` ends** with what it had and the payloads of the used blocks not yet
visited. -/
theorem liveFrom_spec : ∀ (todo seen : List Block) (fuel live : ℕ), Rep lo hi h (seen ++ todo) →
    todo.length < fuel → live + usedBytes todo < 2 ^ 32 →
    h.liveFrom fuel (headAddr todo 0) live = some (live + usedBytes todo) := by
  intro todo
  induction todo with
  | nil =>
    intro seen fuel live _ hf _
    obtain ⟨fuel, rfl⟩ := Nat.exists_eq_add_of_lt hf
    simp [liveFrom, usedBytes]
  | cons b todo ih =>
    intro seen fuel live hr hf hlive
    obtain ⟨k, rfl⟩ := Nat.exists_eq_add_of_lt hf
    obtain ⟨hsz, hiu, h0, hnx⟩ := hr.header_of_append
    have h32 := (hr.tiles.bounds b (by simp)).2.2.1
    have hr' : Rep lo hi h ((seen ++ [b]) ++ todo) := by rwa [List.append_assoc]
    rw [List.length_cons, headAddr_cons, show todo.length + 1 + k + 1 = (todo.length + k + 1) + 1
      by omega, liveFrom, if_neg h0, hiu, hnx]
    cases hbu : b.used with
    | false =>
      rw [usedBytes_cons_free todo hbu] at hlive ⊢
      rw [Bool.not_false, if_pos rfl]
      exact ih (seen ++ [b]) _ live hr' (by omega) hlive
    | true =>
      rw [usedBytes_cons_used todo hbu] at hlive ⊢
      rw [Bool.not_true, if_neg Bool.false_ne_true]
      simp only [hsz, headerBytes]
      rw [if_pos (by omega), Nat.mod_eq_of_lt (by omega), ← Nat.add_assoc]
      exact ih (seen ++ [b]) _ _ hr' (by omega) (by omega)

/-- **The walk of `heap_largest_free` ends.** -/
theorem largestFreeFrom_spec : ∀ (todo seen : List Block) (fuel best : ℕ),
    Rep lo hi h (seen ++ todo) → todo.length < fuel →
    h.largestFreeFrom fuel (headAddr todo 0) best = some (largestFree best todo) := by
  intro todo
  induction todo with
  | nil =>
    intro seen fuel best _ hf
    obtain ⟨fuel, rfl⟩ := Nat.exists_eq_add_of_lt hf
    simp [largestFreeFrom, largestFree]
  | cons b todo ih =>
    intro seen fuel best hr hf
    obtain ⟨k, rfl⟩ := Nat.exists_eq_add_of_lt hf
    obtain ⟨hsz, hiu, h0, hnx⟩ := hr.header_of_append
    have h32 := (hr.tiles.bounds b (by simp)).2.2.1
    have hr' : Rep lo hi h ((seen ++ [b]) ++ todo) := by rwa [List.append_assoc]
    have hih := fun best => ih (seen ++ [b]) (todo.length + k + 1) best hr' (by omega)
    rw [List.length_cons, headAddr_cons, show todo.length + 1 + k + 1 = (todo.length + k + 1) + 1
      by omega, largestFreeFrom, if_neg h0, hiu, hnx]
    cases hbu : b.used with
    | true =>
      have hcons : largestFree best (b :: todo) = largestFree best todo := by
        rw [largestFree, List.filter_cons_of_neg (by simp [hbu]), largestFree]
      rw [if_pos rfl, hih, hcons]
    | false =>
      have hcons : largestFree best (b :: todo) = largestFree (max best (b.size - 16)) todo := by
        rw [largestFree, List.filter_cons_of_pos (by simp [hbu]), List.foldl_cons, largestFree]
      have hmax : (if b.size - 16 > best then b.size - 16 else best) = max best (b.size - 16) := by
        split <;> omega
      rw [if_neg Bool.false_ne_true]
      simp only [hsz, headerBytes]
      rw [if_neg (by omega), hmax, hih, hcons]

/-- **`heap_stats`** on a heap that is the block list `bs`. -/
theorem Rep.heapStats (hr : Rep lo hi h bs) :
    h.heapStats = some ⟨hi - lo, usedBytes bs, largestFree 0 bs⟩ := by
  have hle := usedBytes_le hr.tiles
  have hregion := hr.region
  have h1 := liveFrom_spec bs [] (2 ^ 32) 0 hr hr.length_lt (by omega)
  have h2 := largestFreeFrom_spec bs [] (2 ^ 32) 0 hr hr.length_lt
  rw [hr.headAddr] at h1 h2
  rw [Heap.heapStats, heapLargestFree, hr.gHead, h1, h2, hr.gStart, hr.gEnd, Nat.zero_add]
  rfl

/-! ## What a call changes -/

theorem Rep.nodup (hr : Rep lo hi h bs) : bs.Nodup := by
  suffices ∀ {lo : ℕ} {bs : List Block}, Tiles 16 32 lo hi bs → bs.Nodup from this hr.tiles
  intro lo bs
  induction bs generalizing lo with
  | nil => exact fun _ => List.nodup_nil
  | cons b bs ih =>
    intro ht
    refine List.nodup_cons.mpr ⟨fun hb => ?_, ih ht.2.2.2⟩
    have h1 := (ht.2.2.2.bounds b hb).1
    have h2 := ht.1
    have h3 := ht.2.1
    omega

/-- An allocation adds the payload of the new block. -/
theorem usedBytes_allocated (hr : Rep lo hi h bs) (hr' : Rep lo hi h' bs')
    (ha : Allocated bs bs' p n) : ∃ c ∈ bs', c.used = true ∧ p = c.addr + 16 ∧
      usedBytes bs' = usedBytes bs + (c.size - 16) := by
  obtain ⟨c, hc, hcu, hp, -, hne, hused⟩ := ha
  refine ⟨c, hc, hcu, hp, ?_⟩
  have hperm : (bs'.filter Block.used).Perm (c :: bs.filter Block.used) := by
    refine (List.perm_ext_iff_of_nodup (hr'.nodup.filter _) (List.nodup_cons.mpr
      ⟨fun hcb => ?_, hr.nodup.filter _⟩)).mpr fun d => ?_
    · exact hne c (List.mem_filter.mp hcb).1 hcu rfl
    · rw [List.mem_cons, List.mem_filter, List.mem_filter]
      constructor
      · rintro ⟨hd, hdu⟩
        exact ((hused d hdu).mp hd).symm.imp_right fun hd => ⟨hd, hdu⟩
      · rintro (rfl | ⟨hd, hdu⟩)
        · exact ⟨hc, hcu⟩
        · exact ⟨(hused d hdu).mpr (Or.inl hd), hdu⟩
  rw [usedBytes, (hperm.map _).sum_eq, List.map_cons, List.sum_cons, Nat.add_comm, usedBytes]

/-- A release takes the payload of the old block away. -/
theorem usedBytes_released (hr : Rep lo hi h bs) (hr' : Rep lo hi h' bs')
    (ha : Released bs bs' p) : ∃ c ∈ bs, c.used = true ∧ p = c.addr + 16 ∧
      usedBytes bs' + (c.size - 16) = usedBytes bs := by
  obtain ⟨c, hc, hcu, hp, hused⟩ := ha
  refine ⟨c, hc, hcu, hp, ?_⟩
  have hperm : (bs.filter Block.used).Perm (c :: bs'.filter Block.used) := by
    refine (List.perm_ext_iff_of_nodup (hr.nodup.filter _) (List.nodup_cons.mpr
      ⟨fun hcb => ?_, hr'.nodup.filter _⟩)).mpr fun d => ?_
    · exact ((hused c hcu).mp (List.mem_filter.mp hcb).1).2 rfl
    · rw [List.mem_cons, List.mem_filter, List.mem_filter]
      constructor
      · rintro ⟨hd, hdu⟩
        by_cases hdc : d = c
        · exact Or.inl hdc
        · exact Or.inr ⟨(hused d hdu).mpr ⟨hd, hdc⟩, hdu⟩
      · rintro (rfl | ⟨hd, hdu⟩)
        · exact ⟨hc, hcu⟩
        · exact ⟨((hused d hdu).mp hd).1, hdu⟩
  rw [usedBytes, usedBytes, (hperm.map _).sum_eq, List.map_cons, List.sum_cons, Nat.add_comm]

theorem Rep.bsize_of_mem (hr : Rep lo hi h bs) {b : Block} (hb : b ∈ bs) :
    h.bsize b.addr = b.size := by
  obtain ⟨pre, post, rfl⟩ := List.append_of_mem hb
  exact hr.header_of_append.1

end

/-! ## The heap of the kernel -/

namespace KHeap

open Session

variable {lo hi : ℕ}

/-- What `heap_stats` reports as in use. -/
def used (s : KHeap lo hi) : ℕ := s.session.heap.heapStats.elim 0 Stats.used

/-- The payload bytes of the block that `p` points into. -/
def room (s : KHeap lo hi) (p : ℕ) : ℕ := s.session.heap.bsize (p - headerBytes) - headerBytes

variable {s s' : KHeap lo hi} {bs bs' : List Block} {p q pages : ℕ}

theorem used_eq (hr : Rep lo hi s.session.heap bs) : s.used = usedBytes bs := by
  rw [used, hr.heapStats]
  rfl

theorem room_eq (hr : Rep lo hi s.session.heap bs) {b : Block} (hb : b ∈ bs) :
    s.room (b.addr + 16) = b.size - 16 := by
  rw [room, headerBytes, Nat.add_sub_cancel, hr.bsize_of_mem hb]

/-- A pointer that is out is the payload of a used block. -/
theorem exists_block (ha : Accounted bs s.session.live) (hp : (s.live p).isSome) :
    ∃ b ∈ bs, b.used = true ∧ p = b.addr + 16 := by
  obtain ⟨r, hr⟩ := Option.isSome_iff_exists.mp (Option.isSome_map.symm.trans hp)
  exact ha.block p r hr

/-- A request that is met, on the block lists. -/
theorem kframeAllocN_allocated (s : KHeap lo hi) (hp : Fits pages)
    (h0 : (s.kframeAllocN pages).1 ≠ 0) (hr : Rep lo hi s.session.heap bs) :
    ∃ bs', Rep lo hi (s.kframeAllocN pages).2.session.heap bs' ∧
      Allocated bs bs' (s.kframeAllocN pages).1 (pages * 4096) := by
  rcases hr.kframeAllocN hp with hres | ⟨p, h', bs', hres, hp0, -, hr', hall⟩
  · refine absurd ?_ h0
    rw [kframeAllocN, dif_pos hp]
    split
    · next r hr => exact (congrArg Prod.fst (Option.some.inj (hres.symm.trans hr))).symm
    · rfl
  · refine ⟨bs', ?_⟩
    rw [kframeAllocN, dif_pos hp]
    split
    · next r hr =>
      obtain rfl : (p, h') = r := Option.some.inj (hres.symm.trans hr)
      simp only [Session.give, if_neg hp0]
      exact ⟨hr', hall⟩
    · next hr =>
      rw [hres] at hr
      cases hr

/-- A release, on the block lists. -/
theorem kfree_released (s : KHeap lo hi) (hp : (s.live p).isSome)
    (hr : Rep lo hi s.session.heap bs) (ha : Accounted bs s.session.live) :
    ∃ bs', Rep lo hi (s.kfree p).session.heap bs' ∧ Released bs bs' p := by
  obtain ⟨b, hb, hbu, rfl⟩ := exists_block ha hp
  obtain ⟨pre, post, rfl⟩ := List.append_of_mem hb
  rw [kfree, dif_pos (Option.isSome_map.symm.trans hp)]
  exact hr.kfree hbu

/-- Used blocks that stay keep their room. -/
theorem room_congr (hr : Rep lo hi s.session.heap bs) (hr' : Rep lo hi s'.session.heap bs')
    {b : Block} (hb : b ∈ bs) (hb' : b ∈ bs') : s'.room (b.addr + 16) = s.room (b.addr + 16) := by
  rw [room_eq hr hb, room_eq hr' hb']

instance : UsageStats (KHeap lo hi) where
  used := used
  room := room
  le_room s p b hp := by
    obtain ⟨bs, hr, ha⟩ := s.inv
    obtain ⟨r, hl, rfl⟩ := Option.map_eq_some_iff.mp hp
    obtain ⟨c, hc, -, rfl, hroom, -⟩ := ha.find hl
    rw [room_eq hr hc]
    omega
  used_fail s n hn h0 := by
    rcases s.kframeAllocN_cases (fits_of_lt hn) with ⟨-, h⟩ | ⟨h, -⟩
    · exact congrArg used h
    · exact absurd h0 h
  used_alloc s n hn h0 := by
    obtain ⟨bs, hr, -⟩ := s.inv
    obtain ⟨bs', hr', hall⟩ := s.kframeAllocN_allocated (fits_of_lt hn) h0 hr
    obtain ⟨c, hc, -, hp, hsum⟩ := usedBytes_allocated hr hr' hall
    change (s.kframeAllocN n).2.used = s.used + (s.kframeAllocN n).2.room (s.kframeAllocN n).1
    rw [used_eq hr, used_eq hr', hsum, hp, room_eq hr' hc]
  room_alloc s n p hn hp := by
    obtain ⟨bs, hr, ha⟩ := s.inv
    obtain ⟨b, hb, hbu, rfl⟩ := exists_block ha hp
    by_cases h0 : (s.kframeAllocN n).1 = 0
    · rcases s.kframeAllocN_cases (fits_of_lt hn) with ⟨-, h⟩ | ⟨h, -⟩
      · exact congrArg (fun s : KHeap lo hi => s.room (b.addr + 16)) h
      · exact absurd h0 h
    · obtain ⟨bs', hr', c, -, -, -, -, -, hused⟩ := s.kframeAllocN_allocated (fits_of_lt hn) h0 hr
      exact room_congr hr hr' hb ((hused b hbu).mpr (Or.inl hb))
  used_free s p hp := by
    obtain ⟨bs, hr, ha⟩ := s.inv
    obtain ⟨bs', hr', hrel⟩ := s.kfree_released hp hr ha
    obtain ⟨c, hc, -, rfl, hsum⟩ := usedBytes_released hr hr' hrel
    change (s.kfree _).used + s.room _ = s.used
    rw [used_eq hr, used_eq hr', room_eq hr hc, hsum]
  room_free s p q hp hq hne := by
    obtain ⟨bs, hr, ha⟩ := s.inv
    obtain ⟨bs', hr', c, -, -, rfl, hused⟩ := s.kfree_released hp hr ha
    obtain ⟨b, hb, hbu, rfl⟩ := exists_block ha hq
    refine room_congr hr hr' hb ((hused b hbu).mpr ⟨hb, ?_⟩)
    rintro rfl
    exact hne rfl

end KHeap

end Heap

end Aurisys
