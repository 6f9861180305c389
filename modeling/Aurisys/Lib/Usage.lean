import Aurisys.Lib.Pages
import Mathlib.Algebra.BigOperators.Group.Multiset.Basic
import Mathlib.Algebra.Order.Group.Multiset

/-!
# How much is handed out

An allocator that can say how much of its memory is in use. The number is the sum of the rooms of
the runs that are out, and the room of a run does not change while it is out. A run may have more
room than was asked for.

A client that knows which runs it took keeps a *bill*: the runs it still has, each once, and what is
out and in use besides. Taking a run adds it to the bill and giving one back strikes it off, so that
a client that gives everything back leaves the number as it was.

## Main definitions

* `UsageStats` — the number in use, and its laws
* `Bill` — the runs of a client, and what is out and in use besides
* `Listed` — an allocator with a list of what is out

## Main results

* `Bill.alloc`, `Bill.free`, `Bill.takePages`
* `used_lt_takePages` — pages that are not given back show
-/

namespace Aurisys

open PageAlloc

/-- An allocator that knows how much is in use. `room h p` is the room of the run at `p`. -/
class UsageStats (H : Type) [PageAlloc H] where
  used : H → ℕ
  room : H → ℕ → ℕ
  le_room (h : H) (p b : ℕ) : live h p = some b → b ≤ room h p
  used_fail (h : H) (n : ℕ) : n < 2 ^ 16 → (allocN h n).1 = 0 → used (allocN h n).2 = used h
  used_alloc (h : H) (n : ℕ) : n < 2 ^ 16 → (allocN h n).1 ≠ 0 →
    used (allocN h n).2 = used h + room (allocN h n).2 (allocN h n).1
  room_alloc (h : H) (n p : ℕ) : n < 2 ^ 16 → (live h p).isSome → room (allocN h n).2 p = room h p
  used_free (h : H) (p : ℕ) : (live h p).isSome → used (free h p) + room h p = used h
  room_free (h : H) (p q : ℕ) : (live h p).isSome → (live h q).isSome → q ≠ p →
    room (free h p) q = room h q

namespace Pages

open UsageStats

variable {H : Type} [PageAlloc H] [UsageStats H] {h : H} {n p base : ℕ} {rest : Set ℕ}
  {ps : Multiset ℕ}

/-! ## Taking only -/

theorem used_le_alloc (h : H) (hn : n < 2 ^ 16) : used h ≤ used (allocN h n).2 := by
  by_cases h0 : (allocN h n).1 = 0
  · exact (used_fail h n hn h0).ge
  · rw [used_alloc h n hn h0]
    exact Nat.le_add_right _ _

/-- A page that was handed out has room. -/
theorem room_pos (h : H) (hn : n < 2 ^ 16) (h0 : (allocN h n).1 ≠ 0) (hpos : 0 < n) :
    0 < room (allocN h n).2 (allocN h n).1 := by
  have hl : live (allocN h n).2 (allocN h n).1 = some (n * 4096) := by
    rw [allocN_live h n hn h0, Function.update_self]
  have := le_room _ _ _ hl
  omega

theorem used_le_takePages (n : ℕ) : ∀ h : H, used h ≤ used (takePages h n) := by
  induction n with
  | zero => exact fun h => Nat.le_refl _
  | succ n ih => exact fun h => (used_le_alloc h (by decide)).trans (ih _)

/-- One page is enough to be seen. -/
theorem used_lt_takePages (h : H) (n : ℕ) (h0 : (allocN h 1).1 ≠ 0) :
    used h < used (takePages h (n + 1)) := by
  refine lt_of_lt_of_le ?_ (used_le_takePages n _)
  rw [used_alloc h 1 (by decide) h0]
  exact Nat.lt_add_of_pos_right (room_pos h (by decide) h0 Nat.one_pos)

/-! ## Bills -/

/-- The room of some runs together. -/
def total (h : H) (ps : Multiset ℕ) : ℕ := (ps.map (room h)).sum

theorem total_cons (h : H) (p : ℕ) (ps : Multiset ℕ) :
    total h (p ::ₘ ps) = room h p + total h ps := by
  rw [total, Multiset.map_cons, Multiset.sum_cons, total]

/-- The runs at `ps` are out, each once; besides them those in `rest` are out, and `base` is in
use. -/
structure Bill (rest : Set ℕ) (base : ℕ) (h : H) (ps : Multiset ℕ) : Prop where
  /-- Nothing else is out. -/
  out : ∀ p, (live h p).isSome ↔ p ∈ rest ∨ p ∈ ps
  /-- The runs are not of the rest. -/
  apart : ∀ p ∈ ps, p ∉ rest
  /-- No run is there twice. -/
  nodup : ps.Nodup
  /-- What is in use is the sum. -/
  used : used h = base + total h ps

theorem Bill.zero (h : H) : Bill {p | (live h p).isSome} (UsageStats.used h) h 0 :=
  ⟨fun p => by simp, fun _ hp => absurd hp (Multiset.notMem_zero _), Multiset.nodup_zero, rfl⟩

theorem Bill.live (hb : Bill rest base h ps) (hp : p ∈ ps) : (live h p).isSome :=
  (hb.out p).mpr (Or.inr hp)

theorem Bill.used_eq (hb : Bill rest base h 0) : UsageStats.used h = base := hb.used

theorem Bill.total_alloc (hb : Bill rest base h ps) (hn : n < 2 ^ 16) :
    total (allocN h n).2 ps = total h ps := by
  rw [total, total]
  exact congrArg Multiset.sum
    (Multiset.map_congr rfl fun p hp => UsageStats.room_alloc h n p hn (hb.live hp))

/-- A request that is met goes on the bill. -/
theorem Bill.alloc (hb : Bill rest base h ps) (hn : n < 2 ^ 16) (h0 : (allocN h n).1 ≠ 0) :
    Bill rest base (allocN h n).2 ((allocN h n).1 ::ₘ ps) := by
  have hl := allocN_live h n hn h0
  have hnew : ¬((allocN h n).1 ∈ rest ∨ (allocN h n).1 ∈ ps) := by
    rw [← hb.out, allocN_fresh h n hn h0]
    exact Bool.false_ne_true
  obtain ⟨hrest, hps⟩ := not_or.mp hnew
  refine ⟨fun q => ?_, fun q hq => ?_, Multiset.nodup_cons.mpr ⟨hps, hb.nodup⟩, ?_⟩
  · rw [hl, Multiset.mem_cons]
    by_cases hq : q = (allocN h n).1
    · rw [hq, Function.update_self]
      exact iff_of_true rfl (Or.inr (Or.inl rfl))
    · rw [Function.update_of_ne hq, hb.out, or_iff_right hq]
  · rcases Multiset.mem_cons.mp hq with rfl | hq
    · exact hrest
    · exact hb.apart q hq
  · rw [used_alloc h n hn h0, hb.used, total_cons, hb.total_alloc hn]
    omega

/-- A request that is not met changes nothing. -/
theorem Bill.fail (hb : Bill rest base h ps) (hn : n < 2 ^ 16) (h0 : (allocN h n).1 = 0) :
    Bill rest base (allocN h n).2 ps :=
  ⟨fun q => by rw [allocN_fail h n hn h0, hb.out], hb.apart, hb.nodup, by
    rw [used_fail h n hn h0, hb.used, hb.total_alloc hn]⟩

/-- A request that may not be met; the null pointer is no run. -/
theorem Bill.allocOr (hb : Bill rest base h ps) (hn : n < 2 ^ 16) :
    Bill rest base (allocN h n).2 ([(allocN h n).1].filter (· ≠ 0) + ps) := by
  by_cases h0 : (allocN h n).1 = 0
  · rw [h0]
    exact (zero_add ps).symm ▸ hb.fail hn h0
  · rw [List.filter_cons_of_pos (by simpa using h0)]
    exact hb.alloc hn h0

/-- A run that is given back comes off the bill. -/
theorem Bill.free (hb : Bill rest base h (p ::ₘ ps)) : Bill rest base (free h p) ps := by
  have hp := hb.live (Multiset.mem_cons_self p ps)
  obtain ⟨hps, hnd⟩ := Multiset.nodup_cons.mp hb.nodup
  have hne : ∀ q ∈ ps, q ≠ p := fun q hq he => hps (he ▸ hq)
  have hroom : total (PageAlloc.free h p) ps = total h ps :=
    congrArg Multiset.sum (Multiset.map_congr rfl fun q hq =>
      room_free h p q hp (hb.live (Multiset.mem_cons_of_mem hq)) (hne q hq))
  refine ⟨fun q => ?_, fun q hq => hb.apart q (Multiset.mem_cons_of_mem hq), hnd, ?_⟩
  · rw [free_live h p hp]
    by_cases hq : q = p
    · rw [hq, Function.update_self]
      exact iff_of_false Bool.false_ne_true
        (not_or.mpr ⟨hb.apart p (Multiset.mem_cons_self p ps), hps⟩)
    · rw [Function.update_of_ne hq, hb.out, Multiset.mem_cons, or_iff_right hq]
  · have h1 := used_free h p hp
    have h2 := hb.used
    rw [total_cons] at h2
    omega

theorem Bill.freeAll {qs : List ℕ} (hb : Bill rest base h (qs + ps)) :
    Bill rest base (qs.foldl PageAlloc.free h) ps := by
  induction qs generalizing h with
  | nil => exact (zero_add ps) ▸ hb
  | cons q qs ih =>
    rw [← Multiset.cons_coe, Multiset.cons_add] at hb
    exact ih hb.free

/-- Giving back runs of which some may be the null pointer. -/
theorem Bill.freeNonzero {qs : List ℕ} (hb : Bill rest base h (qs.filter (· ≠ 0) + ps)) :
    Bill rest base (qs.foldl PageAlloc.free h) ps := by
  induction qs generalizing h with
  | nil => exact (zero_add ps) ▸ hb
  | cons q qs ih =>
    refine ih ?_
    by_cases hq : q = 0
    · subst hq
      rw [free_zero]
      exact hb
    · rw [List.filter_cons_of_pos (by simpa using hq), ← Multiset.cons_coe, Multiset.cons_add] at hb
      exact hb.free

/-- Pages taken one after the other. -/
theorem Bill.takePages : ∀ {n : ℕ} {h : H} {ps : Multiset ℕ}, Bill rest base h ps →
    HasPages h n → Bill rest base (takePages h n) ((List.range n).map (pageAt h) + ps) := by
  intro n
  induction n with
  | zero => exact fun {h ps} hb _ => (zero_add ps).symm ▸ hb
  | succ n ih =>
    intro h ps hb hn
    have := ih (hb.alloc (by decide) hn.1) hn.2
    rw [List.range_succ_eq_map, List.map_cons, List.map_map, ← Multiset.cons_coe,
      Multiset.cons_add, ← Multiset.add_cons]
    exact this

/-- Runs that are out make a bill of their own. -/
theorem exists_bill (hnd : ps.Nodup) (hl : ∀ p ∈ ps, (live h p).isSome) :
    ∃ base, Bill {p | (live h p).isSome ∧ p ∉ ps} base h ps := by
  suffices ∃ base, UsageStats.used h = base + total h ps by
    obtain ⟨base, hu⟩ := this
    refine ⟨base, fun p => ?_, fun p hp h' => h'.2 hp, hnd, hu⟩
    by_cases hp : p ∈ ps
    · exact iff_of_true (hl p hp) (Or.inr hp)
    · simp [hp]
  induction ps using Multiset.induction generalizing h with
  | empty => exact ⟨UsageStats.used h, rfl⟩
  | cons p ps ih =>
    obtain ⟨hps, hnd'⟩ := Multiset.nodup_cons.mp hnd
    have hp := hl p (Multiset.mem_cons_self p ps)
    have hlps : ∀ q ∈ ps, (live h q).isSome := fun q hq => hl q (Multiset.mem_cons_of_mem hq)
    have hne : ∀ q ∈ ps, q ≠ p := fun q hq he => hps (he ▸ hq)
    obtain ⟨base, hu⟩ := ih (h := PageAlloc.free h p) hnd' fun q hq => by
      rw [free_live h p hp, Function.update_of_ne (hne q hq)]
      exact hlps q hq
    have hroom : total (PageAlloc.free h p) ps = total h ps :=
      congrArg Multiset.sum (Multiset.map_congr rfl fun q hq =>
        room_free h p q hp (hlps q hq) (hne q hq))
    refine ⟨base, ?_⟩
    have h1 := used_free h p hp
    rw [total_cons]
    omega

/-! ## An allocator with a list of what is out -/

/-- An allocator that lists the runs that are out. -/
structure Listed (H : Type) [PageAlloc H] where
  heap : H
  runs : List ℕ
  nodup : runs.Nodup
  mem_iff : ∀ p, p ∈ runs ↔ (live heap p).isSome

namespace Listed

variable {H : Type} [PageAlloc H]

theorem notMem_runs (h : Listed H) {n : ℕ} (hn : n < 2 ^ 16)
    (h0 : (PageAlloc.allocN h.heap n).1 ≠ 0) : (PageAlloc.allocN h.heap n).1 ∉ h.runs := by
  rw [h.mem_iff, allocN_fresh h.heap n hn h0]
  exact Bool.false_ne_true

theorem mem_cons_iff (h : Listed H) {n : ℕ} (hn : n < 2 ^ 16)
    (h0 : (PageAlloc.allocN h.heap n).1 ≠ 0) (p : ℕ) :
    p ∈ (PageAlloc.allocN h.heap n).1 :: h.runs ↔
      (live (PageAlloc.allocN h.heap n).2 p).isSome := by
  rw [allocN_live h.heap n hn h0, List.mem_cons, h.mem_iff]
  by_cases hp : p = (PageAlloc.allocN h.heap n).1
  · rw [hp, Function.update_self]
    exact iff_of_true (Or.inl rfl) rfl
  · rw [Function.update_of_ne hp, or_iff_right hp]

/-- A request as `PageAlloc` has laws for; any other is refused. -/
def allocN (h : Listed H) (n : ℕ) : ℕ × Listed H :=
  if hn : n < 2 ^ 16 then
    if h0 : (PageAlloc.allocN h.heap n).1 = 0 then
      (0, ⟨(PageAlloc.allocN h.heap n).2, h.runs, h.nodup, fun p => by
        rw [allocN_fail h.heap n hn h0, h.mem_iff]⟩)
    else
      ((PageAlloc.allocN h.heap n).1, ⟨(PageAlloc.allocN h.heap n).2,
        (PageAlloc.allocN h.heap n).1 :: h.runs,
        List.nodup_cons.mpr ⟨h.notMem_runs hn h0, h.nodup⟩, h.mem_cons_iff hn h0⟩)
  else (0, h)

def free (h : Listed H) (p : ℕ) : Listed H :=
  if hp : (live h.heap p).isSome then
    ⟨PageAlloc.free h.heap p, h.runs.erase p, h.nodup.erase p, fun q => by
      rw [free_live h.heap p hp, h.nodup.mem_erase_iff, h.mem_iff]
      by_cases hq : q = p
      · rw [hq, Function.update_self]
        exact iff_of_false (fun h => h.1 rfl) Bool.false_ne_true
      · rw [Function.update_of_ne hq]
        exact and_iff_right hq⟩
  else h

/-- A request is refused, or met as the allocator below meets it. -/
theorem allocN_cases (h : Listed H) {n : ℕ} (hn : n < 2 ^ 16) :
    ((h.allocN n).1 = 0 ∧ (PageAlloc.allocN h.heap n).1 = 0 ∧
        live (h.allocN n).2.heap = live h.heap ∧ (h.allocN n).2.runs = h.runs) ∨
      ((PageAlloc.allocN h.heap n).1 ≠ 0 ∧ (h.allocN n).1 = (PageAlloc.allocN h.heap n).1 ∧
        (h.allocN n).2.heap = (PageAlloc.allocN h.heap n).2 ∧
        (h.allocN n).2.runs = (PageAlloc.allocN h.heap n).1 :: h.runs) := by
  rw [allocN, dif_pos hn]
  split
  · next h0 => exact Or.inl ⟨rfl, h0, allocN_fail h.heap n hn h0, rfl⟩
  · next h0 => exact Or.inr ⟨h0, rfl, rfl, rfl⟩

end Listed

variable {H : Type} [PageAlloc H]

instance : PageAlloc (Listed H) where
  allocN := Listed.allocN
  free := Listed.free
  live h := live h.heap
  live_zero h := live_zero h.heap
  allocN_fail h n hn h0 := by
    rcases h.allocN_cases hn with ⟨-, -, hl, -⟩ | ⟨hne, he, -⟩
    · exact hl
    · exact absurd (he.symm.trans h0) hne
  allocN_live h n hn h0 := by
    rcases h.allocN_cases hn with ⟨h1, -⟩ | ⟨hne, he, hh, -⟩
    · exact absurd h1 h0
    · rw [hh, he, allocN_live h.heap n hn hne]
  allocN_fresh h n hn h0 := by
    rcases h.allocN_cases hn with ⟨h1, -⟩ | ⟨hne, he, -⟩
    · exact absurd h1 h0
    · rw [he, allocN_fresh h.heap n hn hne]
  allocN_apart h n hn h0 q b hq := by
    rcases h.allocN_cases hn with ⟨h1, -⟩ | ⟨hne, he, -⟩
    · exact absurd h1 h0
    · rw [he]
      exact allocN_apart h.heap n hn hne q b hq
  allocN_dvd h n hn := by
    rcases h.allocN_cases hn with ⟨h1, -⟩ | ⟨-, he, -⟩
    · rw [h1]
      exact Nat.dvd_zero _
    · rw [he]
      exact allocN_dvd h.heap n hn
  allocN_le h n hn h0 := by
    rcases h.allocN_cases hn with ⟨h1, -⟩ | ⟨hne, he, -⟩
    · exact absurd h1 h0
    · rw [he]
      exact allocN_le h.heap n hn hne
  free_zero h := dif_neg (by rw [live_zero]; exact Bool.false_ne_true)
  free_live h p hp := by
    rw [Listed.free, dif_pos hp, free_live h.heap p hp]

/-- What is in use is the sum over the list. -/
instance : UsageStats (Listed H) where
  used h := (h.runs.map fun p => (live h.heap p).getD 0).sum
  room h p := (live h.heap p).getD 0
  le_room h p b hb := (congrArg (Option.getD · 0) hb).ge
  used_fail h n hn h0 := by
    rcases h.allocN_cases hn with ⟨-, -, hl, hr⟩ | ⟨hne, he, -⟩
    · change (List.map (fun p => (live (h.allocN n).2.heap p).getD 0) (h.allocN n).2.runs).sum = _
      rw [hl, hr]
    · exact absurd (he.symm.trans h0) hne
  used_alloc h n hn h0 := by
    rcases h.allocN_cases hn with ⟨h1, -⟩ | ⟨hne, he, hh, hr⟩
    · exact absurd h1 h0
    · change (List.map (fun p => (live (h.allocN n).2.heap p).getD 0) (h.allocN n).2.runs).sum
        = _ + (live (h.allocN n).2.heap (h.allocN n).1).getD 0
      rw [hh, hr, he, List.map_cons, List.sum_cons, Nat.add_comm]
      congr 2
      refine List.map_congr_left fun p hp => ?_
      rw [allocN_live h.heap n hn hne, Function.update_of_ne]
      exact fun hpe => h.notMem_runs hn hne (hpe ▸ hp)
  room_alloc h n p hn hp := by
    rcases h.allocN_cases hn with ⟨-, -, hl, -⟩ | ⟨hne, -, hh, -⟩
    · change (live (h.allocN n).2.heap p).getD 0 = _
      rw [hl]
    · change (live (h.allocN n).2.heap p).getD 0 = _
      rw [hh, allocN_live h.heap n hn hne, Function.update_of_ne]
      rintro rfl
      change (live h.heap _).isSome = true at hp
      rw [allocN_fresh h.heap n hn hne] at hp
      cases hp
  used_free h p hp := by
    have hp' : (live h.heap p).isSome := hp
    change (List.map (fun q => (live (h.free p).heap q).getD 0) (h.free p).runs).sum + _ = _
    rw [Listed.free, dif_pos hp',
      ((List.perm_cons_erase ((h.mem_iff p).mpr hp)).map fun q => (live h.heap q).getD 0).sum_eq,
      List.map_cons, List.sum_cons, Nat.add_comm]
    congr 2
    refine List.map_congr_left fun q hq => ?_
    rw [free_live h.heap p hp', Function.update_of_ne (h.nodup.mem_erase_iff.mp hq).1]
  room_free h p q hp _ hne := by
    have hp' : (live h.heap p).isSome := hp
    change (live (h.free p).heap q).getD 0 = _
    rw [Listed.free, dif_pos hp', free_live h.heap p hp', Function.update_of_ne hne]

end Pages

end Aurisys
