import Aurisys.User.Safety

/-!
# The order of the free list

`free` walks the list to the first block above its own and joins the neighbours it touches there,
which finds both of them as long as the list is in order. `malloc` puts the tail in front of the
list before it looks, and the tail lies above everything. So the order is kept by the calls at which
this does not happen, or at which what was put in front does not stay there together with something
else.

## Main results

* `list_in_order` — as long as the tail is not in the way
* `not_inOrder_three` — three requests after which the list is not in order
-/

namespace Aurisys

open Bytes FreeList Kernel

namespace UserHeap

/-- The addresses on the list go up, and no two blocks of it touch. -/
def InOrder (h : UserHeap) : Prop :=
  ∃ fl, Session.IsFreeList h fl ∧ (fl.Pairwise fun a b => a.addr < b.addr) ∧
    ∀ a ∈ fl, ∀ b ∈ fl, a.stop ≠ b.addr

namespace Session

variable {s s' : Session} {us fl : List Span} {mem : Bytes} {t : Task} {code stack heap : ℕ}

theorem Inv.inOrder (hs : Inv s us fl) (hsp : Spaced fl) : InOrder s.heap := by
  refine ⟨fl, ⟨hs.good.free, fun b hb => hs.good.addr_ne_zero (List.mem_append_left _ hb)⟩, ?_, ?_⟩
  · exact hsp.imp fun h => lt_of_le_of_lt (Nat.le_add_right _ _) h
  · exact hsp.ne_addr fun b hb =>
      lt_of_lt_of_le (by omega) (hs.good.block b (List.mem_append_left _ hb)).header

/-- **The list stays in order**, and its blocks apart, in any run in which the tail is not in the
way. -/
theorem list_in_order (h0 : heap ≠ 0) (h1 : heap + kArenaBytes < 2 ^ 32)
    (hs : Runs (fun s c => Small s c ∧ s.Settles c) (fresh mem t code stack heap) s) :
    InOrder s.heap := by
  obtain ⟨us, fl, hinv, hsp⟩ := (inv_fresh h0 h1).runs_spaced
    (fun _ _ _ _ hi hm hp => ⟨hi.fits_of_small hm hp.1, hp.2⟩) List.Pairwise.nil hs
  exact hinv.inOrder hsp

/-- Two requests of 16 bytes. -/
theorem list_in_order_two : ∃ s : Session, s.live 0x40200020 = some 16 ∧ InOrder s.heap := by
  obtain ⟨⟨p, s₁⟩, hcall₁, hval₁⟩ : ∃ r, loaded.call (.malloc 16) = some r ∧
      Settled r.2.heap 16 ∧ (r.2.call (.malloc 16)).map (fun r => r.2.live 0x40200020) =
        some (some 16) := by
    have h : (loaded.call (.malloc 16)).map (fun r => decide (Settled r.2.heap 16 ∧
        (r.2.call (.malloc 16)).map (fun r => r.2.live 0x40200020) = some (some 16))) =
        some true := by
      decide +kernel
    obtain ⟨r, hr, hd⟩ := Option.map_eq_some_iff.mp h
    exact ⟨r, hr, of_decide_eq_true hd⟩
  obtain ⟨⟨q, s₂⟩, hcall₂, hval₂⟩ := Option.map_eq_some_iff.mp hval₁.2
  have hfirst : Settled loaded.heap 16 := by decide +kernel
  have hword : (16 : ℕ) < 2 ^ 32 := by decide
  have hsmall : (16 : ℕ) ≤ 1024 * 1024 := by decide
  have hrun : Runs (fun s c => Small s c ∧ s.Settles c) loaded s₂ :=
    .tail (.single ⟨.malloc 16, p, hword, ⟨hsmall, hfirst⟩, hcall₁⟩)
      ⟨.malloc 16, q, hword, ⟨hsmall, hval₁.1⟩, hcall₂⟩
  exact ⟨s₂, hval₂, list_in_order (by decide) (by decide) hrun⟩

/-- Requests, one after the other. -/
def mallocs : List ℕ → Session → Option Session
  | [], s => some s
  | n :: ns, s => (s.call (.malloc n)).bind fun r => mallocs ns r.2

theorem runs_mallocs {ns : List ℕ} (hns : ∀ n ∈ ns, n ≤ 1024 * 1024) (h : mallocs ns s = some s') :
    Runs Small s s' := by
  induction ns generalizing s with
  | nil =>
    obtain rfl := Option.some.inj h
    exact .refl
  | cons n ns ih =>
    rw [List.forall_mem_cons] at hns
    obtain ⟨⟨p, s₁⟩, hcall, hrest⟩ := Option.bind_eq_some_iff.mp h
    have hword : n < 2 ^ 32 := lt_of_le_of_lt hns.1 (by decide)
    exact .head ⟨.malloc n, p, hword, hns.1, hcall⟩ (ih hns.2 hrest)

/-- After requests of 16, 8192 and 16 bytes the first block of the list lies above the second. -/
theorem not_inOrder_three : ¬∀ s, Runs Small loaded s → InOrder s.heap := by
  intro hall
  have hval : (mallocs [16, 8192, 16] loaded).map (fun s => (s.heap.gFree,
    s.heap.next s.heap.gFree)) =
      some (0x40204020, 0x40200018) := by
    decide +kernel
  obtain ⟨s, hs, he⟩ := Option.map_eq_some_iff.mp hval
  obtain ⟨hfirst, hsecond⟩ := Prod.mk.inj he
  rw [hfirst] at hsecond
  obtain ⟨fl, ⟨hseg, -⟩, hup, -⟩ := hall s (runs_mallocs (by decide) hs)
  rw [hfirst] at hseg
  match fl, hseg, hup with
  | [], hseg, _ => exact absurd (show 0x40204020 = 0 from hseg) (by decide)
  | [b], ⟨hb, _, hend⟩, _ =>
    rw [← hb, hsecond] at hend
    exact absurd (show 0x40200018 = 0 from hend) (by decide)
  | b :: c :: bs, ⟨hb, _, hc, _⟩, hup =>
    have hlt := List.rel_of_pairwise_cons hup List.mem_cons_self
    rw [← hb, hsecond] at hc
    rw [← hb, ← hc] at hlt
    exact absurd hlt (by decide)

end Session

end UserHeap

end Aurisys
