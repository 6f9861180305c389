import Aurisys.Fs.Owned

/-!
# When there is room and `alloc_blocks` finds none

The search of `alloc_blocks` starts at the hint, goes round once, and ends at the bit in front of
the hint. Bit 0 is set, so no run goes across the end of the volume; but one that has the hint
inside is seen in two parts, its end first, and the two are never put together. Such a run is
missed.

## Main definitions

* `OneBlock` — the bitmap is one block, and its first bit is set
* `ClearRun`, `Seen` — a run of clear bits, and one the hint does not cut
* `Allocates` — what `alloc_blocks` is for

## Main results

* `allocates_iff`
-/

namespace Aurisys

open Bytes Fallible

namespace Fs

/-- The bitmap is one block of the volume, and it has been read into a buffer of 4096 bytes. -/
structure OneBlock (s : Fs) : Prop where
  /-- A block of the bitmap fits the buffer. -/
  bs : s.geo.bs ≤ 4096
  /-- It has a bit for every block. -/
  blocks : s.geo.blocks ≤ 8 * s.geo.bs
  /-- It is on the volume. -/
  bbb : s.geo.bbb < s.geo.blocks
  /-- The first block is in use. -/
  zero : s.Used 0
  /-- The search begins on the volume. -/
  hint : s.hint < s.geo.blocks

/-- The bits from `a` on are `n` clear ones. -/
def ClearRun (s : Fs) (n a : ℕ) : Prop := a + n ≤ s.geo.blocks ∧ ∀ b, a ≤ b → b < a + n → ¬s.Used b

/-- The hint is not inside the run. -/
def Seen (s : Fs) (n a : ℕ) : Prop := s.hint ≤ a ∨ a + n ≤ s.hint

/-- A run has been taken: its bits were clear, they are set now, and the others are as they were. -/
structure Took (s : Fs) (n first : ℕ) (t : Fs) : Prop where
  clear : s.ClearRun n first
  bits : ∀ b, (t.disk s.geo.bbb).bit b =
    (decide (first ≤ b ∧ b < first + n) || (s.disk s.geo.bbb).bit b)
  disk : ∀ k, k ≠ s.geo.bbb → t.disk k = s.disk k

/-- `alloc_blocks` takes a run of `n` bits whenever there is one. -/
def Allocates (s : Fs) (n : ℕ) : Prop :=
  (∃ a, s.ClearRun n a) → ∃ first t, exec (allocBlocks n) s = (some first, t) ∧ Took s n first t

/-! ## The search -/

variable {s : Fs} {n first : ℕ} {used : ℕ → Bool} {blocks hint : ℕ}

/-- **Nothing that is in one piece is missed.** A window of clear bits may have begun with the run
that is being counted, and it ends before the search does. -/
theorem findRun_complete {k i run start j : ℕ} (hi : hint + i + k ≤ 2 ^ 32) (hrun : run < n)
    (hj : i ≤ j + run) (hend : j + n ≤ i + k)
    (hclear : ∀ m, i ≤ m → j ≤ m → m < j + n → used ((hint + m) % blocks) = false) :
    ∃ first, findRun used blocks hint n k i run start = some first := by
  induction k generalizing i run start with
  | zero => omega
  | succ k ih =>
    have hu : u32 (hint + i) = hint + i := Nat.mod_eq_of_lt (by omega)
    rw [findRun, hu]
    by_cases hb : used ((hint + i) % blocks) = true
    · -- the window has not begun, or it would have this bit in it
      have hlt : i < j := by
        by_contra hge
        rw [hclear i le_rfl (by omega) (by omega)] at hb
        exact Bool.noConfusion hb
      rw [if_pos hb]
      exact ih (by omega) (by omega) (by omega) (by omega)
        fun m h₁ h₂ h₃ => hclear m (by omega) h₂ h₃
    · rw [if_neg hb]
      dsimp only
      by_cases hdone : run + 1 = n
      · rw [if_pos hdone]
        exact ⟨_, rfl⟩
      · rw [if_neg hdone]
        exact ih (by omega) (by omega) (by omega) (by omega)
          fun m h₁ h₂ h₃ => hclear m (by omega) h₂ h₃

/-- What is found begins where the search has been, and ends in front of where it ends. -/
theorem findRun_index {k i run start : ℕ} (hi : hint + i + k ≤ 2 ^ 32)
    (hstart : run = 0 ∨ ∃ j, j + run = i ∧ start = (hint + j) % blocks)
    (h : findRun used blocks hint n k i run start = some first) :
    ∃ j, j + n ≤ i + k ∧ first = (hint + j) % blocks := by
  induction k generalizing i run start with
  | zero => exact absurd h (by simp [findRun])
  | succ k ih =>
    have hu : u32 (hint + i) = hint + i := Nat.mod_eq_of_lt (by omega)
    rw [findRun, hu] at h
    by_cases hb : used ((hint + i) % blocks) = true
    · rw [if_pos hb] at h
      obtain ⟨j, hj, he⟩ := ih (by omega) (.inl rfl) h
      exact ⟨j, by omega, he⟩
    · rw [if_neg hb] at h
      generalize hst : (if run = 0 then (hint + i) % blocks else start) = start' at h
      have hbegin : ∃ j, j + (run + 1) = i + 1 ∧ start' = (hint + j) % blocks := by
        by_cases hz : run = 0
        · rw [if_pos hz] at hst
          exact ⟨i, by omega, hst.symm⟩
        · rw [if_neg hz] at hst
          obtain ⟨j, hj, he⟩ := hstart.resolve_left hz
          exact ⟨j, by omega, hst ▸ he⟩
      dsimp only at h
      by_cases hdone : run + 1 = n
      · rw [if_pos hdone] at h
        obtain ⟨j, hj, he⟩ := hbegin
        exact ⟨j, by omega, (Option.some.inj h).symm.trans he⟩
      · rw [if_neg hdone] at h
        obtain ⟨j, hj, he⟩ := ih (by omega) (.inr hbegin) h
        exact ⟨j, by omega, he⟩

namespace OneBlock

variable (h : OneBlock s)

include h

/-- What is going to be taken is clear. -/
theorem clear_of_freeRun (hfree : s.freeRun n = some first) : s.ClearRun n first := by
  have hbs := h.bs
  have hblocks := h.blocks
  have hhint := h.hint
  rw [freeRun] at hfree
  split at hfree
  · have hrun := findRun_spec (by omega) h.zero (by omega) (.inl rfl) hfree
    refine ⟨hrun.1, fun b h₁ h₂ hu => ?_⟩
    rw [Used, hrun.2 b h₁ h₂] at hu
    exact Bool.noConfusion hu
  · simp at hfree

/-- The hint is not inside what is going to be taken. -/
theorem seen_of_freeRun (hfree : s.freeRun n = some first) : s.Seen n first := by
  have hbs := h.bs
  have hblocks := h.blocks
  have hhint := h.hint
  have hclear := h.clear_of_freeRun hfree
  rw [freeRun] at hfree
  split at hfree
  · obtain ⟨j, hj, he⟩ := findRun_index (by omega) (.inl rfl) hfree
    rw [Seen]
    by_cases hround : s.hint + j < s.geo.blocks
    · rw [Nat.mod_eq_of_lt hround] at he
      omega
    · rw [Nat.mod_eq_sub_mod (by omega), Nat.mod_eq_of_lt (by omega)] at he
      omega
  · simp at hfree

/-- **A run that the hint does not cut is found**, or another one is. -/
theorem freeRun_of_seen {a : ℕ} (hn : 0 < n) (hclear : s.ClearRun n a) (hseen : s.Seen n a) :
    ∃ first, s.freeRun n = some first := by
  have hbs := h.bs
  have hblocks := h.blocks
  have hhint := h.hint
  obtain ⟨hle, hbits⟩ := hclear
  have hbit : ∀ b, a ≤ b → b < a + n → (s.disk s.geo.bbb).bit b = false :=
    fun b h₁ h₂ => Bool.eq_false_iff.mpr (hbits b h₁ h₂)
  rw [freeRun, if_pos ⟨by omega, by omega⟩]
  rcases hseen with hge | hbefore
  · refine findRun_complete (j := a - s.hint) (by omega) hn (by omega)
      (by omega) fun m _ h₁ h₂ => ?_
    rw [Nat.mod_eq_of_lt (by omega)]
    exact hbit _ (by omega) (by omega)
  · refine findRun_complete (j := s.geo.blocks - s.hint + a) (by omega) hn (by omega) (by omega)
      fun m _ h₁ h₂ => ?_
    rw [Nat.mod_eq_sub_mod (by omega), Nat.mod_eq_of_lt (by omega)]
    exact hbit _ (by omega) (by omega)

/-- **What `alloc_blocks` does.** -/
theorem wp_allocBlocks :
    wp (allocBlocks n) (fun first t => s.freeRun n = some first ∧ Took s n first t)
      (fun _ => s.freeRun n = none) s := by
  refine wp_allocBlocks_of h.bbb h.blocks (fun first hfirst => ⟨hfirst, ?_⟩) fun hnone =>
    ⟨hnone, hnone⟩
  have hclear := h.clear_of_freeRun hfirst
  have hdisk := taken_disk (hclear.1.trans h.blocks)
  refine ⟨hclear, fun b => ?_, fun k hk => ?_⟩
  · rw [hdisk, Function.update_self, bit_setBits]
  · rw [hdisk, Function.update_of_ne hk]

end OneBlock

/-- **When `alloc_blocks` does what it is for**: if there is a run at all, there is one that the
hint does not cut. -/
theorem allocates_iff (h : OneBlock s) (hn : 0 < n) :
    Allocates s n ↔ ((∃ a, s.ClearRun n a) → ∃ a, s.ClearRun n a ∧ s.Seen n a) := by
  have hspec := h.wp_allocBlocks (n := n)
  constructor
  · intro hall hex
    obtain ⟨first, t, hrun, _⟩ := hall hex
    have hfree := (wp_of_some hspec hrun).1
    exact ⟨first, h.clear_of_freeRun hfree, h.seen_of_freeRun hfree⟩
  · intro hseen hex
    obtain ⟨a, hclear, ha⟩ := hseen hex
    obtain ⟨first, hfree⟩ := h.freeRun_of_seen hn hclear ha
    rcases hx : exec (allocBlocks n) s with ⟨_ | first', t⟩
    · rw [wp_of_none hspec hx] at hfree
      simp at hfree
    · exact ⟨first', t, rfl, (wp_of_some hspec hx).2⟩

/-- Blocks 9 to 15 are free, and the search for six of them starts at 11. -/
def hinted : Fs := { filed with hint := 11 }

theorem oneBlock_hinted : OneBlock hinted where
  bs := by decide
  blocks := by decide
  bbb := by decide
  zero := by decide +kernel
  hint := by decide

theorem allocates_hinted : Allocates hinted 5 ↔
    ((∃ a, hinted.ClearRun 5 a) → ∃ a, hinted.ClearRun 5 a ∧ hinted.Seen 5 a) :=
  allocates_iff oneBlock_hinted (by decide)

/-- There are seven blocks in a row, and six are refused. -/
theorem missed_at_11 : OneBlock hinted ∧ hinted.ClearRun 6 9 ∧ ¬Allocates hinted 6 := by
  have hrun : hinted.ClearRun 6 9 := by
    refine ⟨by decide, ?_⟩
    have hbits : ∀ b < 15, 9 ≤ b → ¬hinted.Used b := by decide +kernel
    exact fun b h₁ h₂ => hbits b h₂ h₁
  refine ⟨oneBlock_hinted, hrun, fun hall => ?_⟩
  obtain ⟨first, t, hex, _⟩ := hall ⟨9, hrun⟩
  have hnone : (exec (allocBlocks 6) hinted).1 = none := by decide +kernel
  rw [hex] at hnone
  exact absurd hnone (Option.some_ne_none first)

end Fs

end Aurisys
