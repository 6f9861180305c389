import Aurisys.Heap.Safety
import Aurisys.Lib.Pages

/-!
# The heap as a page allocator

The kernel proper uses the heap through `kframe_alloc_n`, `kframe_alloc`, `kframe_free` and `kfree`
on what it was given. A heap that a session reached with such calls keeps the session invariant, so
the pair of the two is a page allocator in the sense of `PageAlloc`.

## Main definitions

* `KHeap lo hi` — a heap over `[lo, hi)` with the pointers handed out
* `KHeap.kframeAllocN`, `KHeap.kfree` — the two calls, total
-/

namespace Aurisys

namespace Heap

open Session

/-- A heap in use: a session that satisfies the invariant of the sessions. -/
structure KHeap (lo hi : ℕ) where
  session : Session
  inv : Inv lo hi session

namespace KHeap

variable {lo hi : ℕ}

/-- The heap that was just set up. -/
def fresh (hreg : Region lo hi) (mem : Bytes) : KHeap lo hi :=
  ⟨Session.fresh mem lo hi, inv_fresh hreg mem⟩

/-- The largest request of whole pages whose size does not wrap. -/
def Fits (pages : ℕ) : Prop := pages * kPage + headerBytes < 2 ^ 32

instance (pages : ℕ) : Decidable (Fits pages) := inferInstanceAs (Decidable (_ < _))

/-- `kframe_alloc_n`: the pointer and the heap after it. A request whose size wraps is none of the
kernel's, and is refused here. -/
def kframeAllocN (s : KHeap lo hi) (pages : ℕ) : ℕ × KHeap lo hi :=
  if hp : Fits pages then
    match hr : s.session.heap.kframeAllocN pages with
    | some r => (r.1, ⟨s.session.give true (pages * kPage) r, by
        obtain ⟨s', hs', hinv⟩ := s.inv.call (c := .kframeAllocN pages) hp
        rw [Session.call, hr, Option.map_some] at hs'
        exact Option.some.inj hs' ▸ hinv⟩)
    | none => (0, s)
  else (0, s)

/-- `kfree` of a pointer that was handed out. Any other pointer is rejected. -/
def kfree (s : KHeap lo hi) (ptr : ℕ) : KHeap lo hi :=
  if hp : (s.session.live ptr).isSome then ⟨⟨s.session.heap.kfree ptr, (s.session.drop ptr).live⟩,
    s.inv.kfree hp⟩
  else s

/-- The bytes handed out at an address. -/
def live (s : KHeap lo hi) (p : ℕ) : Option ℕ := (s.session.live p).map Request.bytes

/-- **What `kframe_alloc_n` does**, on the pointers handed out. -/
theorem kframeAllocN_cases (s : KHeap lo hi) {pages : ℕ} (hp : Fits pages) :
    ((s.kframeAllocN pages).1 = 0 ∧ (s.kframeAllocN pages).2 = s) ∨
      ((s.kframeAllocN pages).1 ≠ 0 ∧ 4096 ∣ (s.kframeAllocN pages).1 ∧
        s.session.live (s.kframeAllocN pages).1 = none ∧
        (s.kframeAllocN pages).2.session.live
          = Function.update s.session.live (s.kframeAllocN pages).1
          (some ⟨pages * 4096, true⟩)) := by
  obtain ⟨bs, hrep, hacc⟩ := s.inv
  rcases hrep.kframeAllocN hp with hres | ⟨p, h', bs', hres, hp0, hdvd, hrep', hall⟩
  · left
    rw [kframeAllocN, dif_pos hp]
    split
    · next r hr =>
      obtain rfl : (0, s.session.heap) = r := Option.some.inj (hres.symm.trans hr)
      exact ⟨rfl, rfl⟩
    · exact ⟨rfl, rfl⟩
  · right
    have hfresh : s.session.live p = none := by
      cases hl : s.session.live p with
      | none => rfl
      | some r =>
        obtain ⟨c, -, -, rfl, -, hne, -⟩ := hall
        obtain ⟨b, hb, hbu, hbp⟩ := hacc.block _ r hl
        exact absurd (by omega) (hne b hb hbu)
    rw [kframeAllocN, dif_pos hp]
    split
    · next r hr =>
      obtain rfl : (p, h') = r := Option.some.inj (hres.symm.trans hr)
      refine ⟨hp0, hdvd, hfresh, ?_⟩
      simp only [give, if_neg hp0, kPage]
    · next hr =>
      rw [hres] at hr
      cases hr

theorem live_apart (s : KHeap lo hi) {p q a b : ℕ} (hp : s.live p = some a)
    (hq : s.live q = some b) (hne : p ≠ q) : p + a ≤ q ∨ q + b ≤ p := by
  obtain ⟨bs, hrep, hacc⟩ := s.inv
  obtain ⟨r, hr, rfl⟩ := Option.map_eq_some_iff.mp hp
  obtain ⟨r', hr', rfl⟩ := Option.map_eq_some_iff.mp hq
  exact (safe_of_rep hrep hacc).disjoint p q r r' hr hr' hne

theorem live_lt (s : KHeap lo hi) {p a : ℕ} (hp : s.live p = some a) : p + a < 2 ^ 32 := by
  obtain ⟨bs, hrep, hacc⟩ := s.inv
  obtain ⟨r, hr, rfl⟩ := Option.map_eq_some_iff.mp hp
  obtain ⟨b, hb, -, rfl, hroom, -⟩ := hacc.find hr
  have hbd := hrep.tiles.bounds b hb
  have hhi := hrep.hi_lt
  omega

/-- The bytes handed out after a request that was met. -/
theorem live_kframeAllocN (s : KHeap lo hi) {pages : ℕ} (hp : Fits pages)
    (h0 : (s.kframeAllocN pages).1 ≠ 0) : (s.kframeAllocN pages).2.live
      = Function.update s.live (s.kframeAllocN pages).1 (some (pages * 4096)) := by
  rcases s.kframeAllocN_cases hp with ⟨h, -⟩ | ⟨-, -, -, hl⟩
  · exact absurd h h0
  · funext q
    rw [live, hl]
    by_cases hq : q = (s.kframeAllocN pages).1
    · rw [hq, Function.update_self, Function.update_self, Option.map_some]
    · rw [Function.update_of_ne hq, Function.update_of_ne hq, live]

theorem fits_of_lt {pages : ℕ} (h : pages < 2 ^ 16) : Fits pages := by
  simp only [Fits, kPage, headerBytes]
  omega

instance : PageAlloc (KHeap lo hi) where
  allocN := kframeAllocN
  free := kfree
  live := live
  live_zero s := by rw [live, Session.live_zero s.inv, Option.map_none]
  allocN_fail s n hn h0 := by
    rcases s.kframeAllocN_cases (fits_of_lt hn) with ⟨-, h⟩ | ⟨h, -⟩
    · rw [h]
    · exact absurd h0 h
  allocN_live s n hn h0 := s.live_kframeAllocN (fits_of_lt hn) h0
  allocN_fresh s n hn h0 := by
    rcases s.kframeAllocN_cases (fits_of_lt hn) with ⟨h, -⟩ | ⟨-, -, h, -⟩
    · exact absurd h h0
    · rw [live, h, Option.map_none]
  allocN_apart s n hn h0 q b hq := by
    have hl := s.live_kframeAllocN (fits_of_lt hn) h0
    have hne : q ≠ (s.kframeAllocN n).1 := by
      rintro rfl
      rcases s.kframeAllocN_cases (fits_of_lt hn) with ⟨h, -⟩ | ⟨-, -, h, -⟩
      · exact h0 h
      · rw [live, h, Option.map_none] at hq
        cases hq
    refine live_apart (s.kframeAllocN n).2 ?_ ?_ hne
    · rw [hl, Function.update_of_ne hne, hq]
    · rw [hl, Function.update_self]
  allocN_dvd s n hn := by
    rcases s.kframeAllocN_cases (fits_of_lt hn) with ⟨h, -⟩ | ⟨-, h, -⟩
    · rw [h]
      exact dvd_zero _
    · exact h
  allocN_le s n hn h0 := by
    refine (s.kframeAllocN n).2.live_lt ?_
    rw [s.live_kframeAllocN (fits_of_lt hn) h0, Function.update_self]
  free_zero s := by
    refine dif_neg ?_
    rw [Session.live_zero s.inv]
    exact Bool.false_ne_true
  free_live s p hp := by
    have hp' : (s.session.live p).isSome := by simpa [live] using hp
    have hl : (s.kfree p).session.live = Function.update s.session.live p none := by
      rw [kfree, dif_pos hp']
      rfl
    funext q
    rw [live, hl]
    by_cases hq : q = p
    · rw [hq, Function.update_self, Function.update_self, Option.map_none]
    · rw [Function.update_of_ne hq, Function.update_of_ne hq, live]

end KHeap

end Heap

end Aurisys
