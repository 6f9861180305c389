import Aurisys.Heap.Stats

/-!
# What the heap says it can still give

`heap_largest_free` is there so that a caller can tell a nearly full heap from a fragmented one. It
is the largest payload of a free block, and `kmalloc` looks for a block with room for a header and a
payload that is rounded up. As every block is a multiple of 16 bytes, rounding up never makes a
request too large that fitted before, and the two agree on every request.

## Main results

* `Rep.kmalloc_iff` — what `kmalloc` needs
* `largest_exact`
-/

namespace Aurisys

open Bytes Blocks

namespace Heap

variable {lo hi n best : ℕ} {h : Heap} {bs : List Block}

/-- A request is met. -/
def Met (h : Heap) (n : ℕ) : Prop := ∃ p h', h.kmalloc n = some (p, h') ∧ p ≠ 0

/-- Something fits in the largest payload when it fits in one of them. -/
theorem le_largestFree_iff : n ≤ largestFree best bs ↔
    n ≤ best ∨ ∃ b ∈ bs, b.used = false ∧ n ≤ b.size - 16 := by
  rw [largestFree]
  induction bs generalizing best with
  | nil => simp
  | cons b bs ih =>
    cases hb : b.used with
    | true =>
      rw [List.filter_cons_of_neg (by simp [hb]), ih]
      simp [hb]
    | false =>
      rw [List.filter_cons_of_pos (by simp [hb]), List.foldl_cons, ih, le_max_iff]
      simp [hb, or_assoc]

/-- A request of one byte or more. -/
theorem kmalloc_eq (hn : 1 ≤ n) : h.kmalloc n = if n > kSizeMax - headerBytes then some (0, h) else
    (h.findFit (alignUp (n + headerBytes) kAlign)).bind fun b => if b = 0 then some (0, h) else
      some (b + headerBytes,
        ((h.split b (alignUp (n + headerBytes) kAlign)).mark b true).addAlloc) := by
  have h0 : (if n = 0 then 1 else n) = n := if_neg (by omega)
  rw [Heap.kmalloc, h0]
  rfl

/-- **When `kmalloc` meets a request**: there is a free block with room for it, rounded up. -/
theorem Rep.kmalloc_iff (hr : Rep lo hi h bs) (hn : 1 ≤ n) : h.Met n ↔
    n ≤ kSizeMax - headerBytes ∧ ∃ b ∈ bs, b.used = false ∧ (n + 31) / 16 * 16 ≤ b.size := by
  rw [Met, kmalloc_eq hn]
  by_cases hbig : n > kSizeMax - headerBytes
  · rw [if_pos hbig]
    refine iff_of_false ?_ fun hc => absurd hc.1 (by omega)
    rintro ⟨p, h', hp, hne⟩
    exact hne (Prod.mk.inj (Option.some.inj hp)).1.symm
  · rw [if_neg hbig, alignUp_request (by omega)]
    rcases hr.findFit ((n + 31) / 16 * 16) with ⟨pre, b, post, rfl, hbu, hbs, hres⟩ | ⟨hres, hnone⟩
    · refine iff_of_true ?_ ⟨by omega, b, by simp, hbu, hbs⟩
      have h0 : b.addr ≠ 0 := hr.header_of_append.2.2.1
      rw [hres, Option.bind_some, if_neg h0]
      exact ⟨_, _, rfl, Nat.succ_ne_zero _⟩
    · refine iff_of_false ?_ ?_
      · rw [hres, Option.bind_some, if_pos rfl]
        rintro ⟨p, h', hp, hne⟩
        exact hne (Prod.mk.inj (Option.some.inj hp)).1.symm
      · rintro ⟨-, b, hb, hbu, hle⟩
        have := hnone b hb hbu
        omega

theorem Rep.heapLargestFree (hr : Rep lo hi h bs) :
    h.heapLargestFree = some (largestFree 0 bs) := by
  have hwalk := largestFreeFrom_spec bs [] (2 ^ 32) 0 hr hr.length_lt
  rw [hr.headAddr] at hwalk
  rw [Heap.heapLargestFree, hr.gHead]
  exact hwalk

/-- **`heap_largest_free` is exact** on a heap of fewer than `2 ^ 30` bytes, after any calls. -/
theorem largest_exact (hreg : Session.Region lo hi) (hsmall : hi - lo < 2 ^ 30)
    (mem : Bytes) {s : Session}
    (hs : Session.Runs (Session.fresh mem lo hi) s) :
    ∃ largest, s.heap.heapLargestFree = some largest ∧ ∀ n, 1 ≤ n →
    (s.heap.Met n ↔ n ≤ largest) := by
  obtain ⟨bs, hr, -⟩ := (Session.inv_fresh hreg mem).runs hs
  refine ⟨_, hr.heapLargestFree, fun n hn => ?_⟩
  rw [hr.kmalloc_iff hn, le_largestFree_iff, or_iff_right (by omega)]
  have hmax : kSizeMax - headerBytes = 0x3FFFFFEF := rfl
  constructor
  · rintro ⟨-, b, hb, hbu, hle⟩
    exact ⟨b, hb, hbu, by omega⟩
  · rintro ⟨b, hb, hbu, hle⟩
    obtain ⟨h1, h2, h3, h4⟩ := hr.tiles.bounds b hb
    have hlo := hreg.lo_dvd
    have hhi := hreg.hi_dvd
    exact ⟨by omega, b, hb, hbu, by omega⟩

/-- On three pages of which ten bytes are taken. -/
theorem largest_exact_ten : ∃ s : Session, s.live 4112 = some ⟨10, false⟩ ∧ ∃ largest,
    s.heap.heapLargestFree = some largest ∧ ∀ n, 1 ≤ n → (s.heap.Met n ↔ n ≤ largest) := by
  obtain ⟨s, hs, hlive⟩ := runs_kmalloc_ten
  exact ⟨s, by rw [hlive, Function.update_self],
    largest_exact region_three_pages (by decide) (fun _ => 0) hs⟩

end Heap

end Aurisys
