import Mathlib.Data.Finset.Card
import Mathlib.Order.Interval.Finset.Nat
import Mathlib.Data.List.TakeWhile

/-!
# Free lists

An allocator with a free list keeps the spans of memory it can hand out in a list. `take` hands out
the first one with room, and cuts off what is left over if that can be a span of its own; `give`
puts a span back in front of the first one above it, joined with the neighbours it touches.

Two things are said about such a list. Its spans have no byte in common with each other, nor with
any other span in a list that is carried along; this does not depend on the order. And, if it is in
order with a gap between any two spans, both operations keep it so.

## Main definitions

* `Span`, `Span.Apart`, `Separate` — spans that share no byte
* `FreeList.take`, `FreeList.give` — the operations
* `Spaced` — in order, with gaps

## Main results

* `Separate.take`, `Separate.give`
* `Spaced.take`, `Spaced.give`
* `Separate.length_le` — there are not more spans than bytes
-/

namespace Aurisys

/-- Some bytes in a row. -/
structure Span where
  addr : ℕ
  size : ℕ
deriving DecidableEq

namespace Span

/-- One past the last byte. -/
def stop (s : Span) : ℕ := s.addr + s.size

/-- No byte is in both. -/
def Apart (s t : Span) : Prop :=
  s.size = 0 ∨ t.size = 0 ∨ s.stop ≤ t.addr ∨ t.stop ≤ s.addr

/-- Every byte of `s` is in `t`. -/
def Within (s t : Span) : Prop := t.addr ≤ s.addr ∧ s.stop ≤ t.stop

variable {s t u : Span} {a m n : ℕ}

theorem Apart.symm (h : Apart s t) : Apart t s := by
  rw [Apart] at h ⊢
  omega

instance : Std.Symm Apart := ⟨fun _ _ h => h.symm⟩

theorem Apart.within (h : Apart t u) (hs : s.Within t) : Apart s u := by
  rw [Within, stop, stop] at hs
  rw [Apart, stop, stop] at h ⊢
  omega

/-- What is apart from two spans that touch is apart from the two as one. -/
theorem Apart.join (h1 : Apart ⟨a, m⟩ u) (h2 : Apart ⟨a + m, n⟩ u) : Apart ⟨a, m + n⟩ u := by
  simp only [Apart, stop] at h1 h2 ⊢
  omega

theorem Apart.addr_ne (h : Apart s t) (hs : 0 < s.size) (ht : 0 < t.size) : s.addr ≠ t.addr := by
  rw [Apart, stop, stop] at h
  omega

end Span

open Span

/-! ## Spans that share no byte -/

/-- No two of the spans share a byte. -/
def Separate (l : List Span) : Prop := l.Pairwise Apart

section

variable {s t : Span} {l l' : List Span} {a m n : ℕ}

theorem separate_cons : Separate (s :: l) ↔ (∀ t ∈ l, Apart s t) ∧ Separate l := List.pairwise_cons

theorem Separate.perm (h : Separate l) (hp : l.Perm l') : Separate l' :=
  (hp.pairwise_iff fun h => h.symm).mp h

theorem Separate.apart (h : Separate l) (hs : s ∈ l) (ht : t ∈ l) (hne : s ≠ t) : s.Apart t :=
  List.Pairwise.forall h hs ht hne

theorem Separate.within (h : Separate (t :: l)) (hs : s.Within t) : Separate (s :: l) := by
  rw [separate_cons] at h ⊢
  exact ⟨fun u hu => (h.1 u hu).within hs, h.2⟩

/-- A span can be cut in two, -/
theorem Separate.split (h : Separate (⟨a, m + n⟩ :: l)) : Separate (⟨a, m⟩ :: ⟨a + m, n⟩ :: l) := by
  have hl : Within ⟨a, m⟩ ⟨a, m + n⟩ := ⟨le_rfl, show a + m ≤ a + (m + n) by omega⟩
  have hr : Within ⟨a + m, n⟩ ⟨a, m + n⟩ :=
    ⟨show a ≤ a + m by omega, show a + m + n ≤ a + (m + n) by omega⟩
  rw [separate_cons, List.forall_mem_cons]
  refine ⟨⟨Or.inr (Or.inr (Or.inl le_rfl)), (separate_cons.mp (h.within hl)).1⟩, h.within hr⟩

/-- and two that touch can be joined. -/
theorem Separate.join (h : Separate (⟨a, m⟩ :: ⟨a + m, n⟩ :: l)) : Separate (⟨a, m + n⟩ :: l) := by
  rw [separate_cons, List.forall_mem_cons, separate_cons] at h
  rw [separate_cons]
  exact ⟨fun u hu => (h.1.2 u hu).join (h.2.1 u hu), h.2.2⟩

/-- Spans with a byte in them start at different addresses. -/
theorem Separate.nodup (h : Separate l) (hpos : ∀ s ∈ l, 0 < s.size) : (l.map Span.addr).Nodup := by
  rw [List.Nodup, List.pairwise_map]
  exact List.Pairwise.imp_of_mem (fun hs ht hst => hst.addr_ne (hpos _ hs) (hpos _ ht)) h

/-- **There are not more spans than bytes.** -/
theorem Separate.length_le (lo hi : ℕ) (h : Separate l) (hpos : ∀ s ∈ l, 0 < s.size)
    (hin : ∀ s ∈ l, lo ≤ s.addr ∧ s.stop ≤ hi) : l.length ≤ hi - lo := by
  have hsub : (l.map Span.addr).toFinset ⊆ Finset.Ico lo hi := by
    intro x hx
    rw [List.mem_toFinset] at hx
    obtain ⟨s, hs, rfl⟩ := List.mem_map.mp hx
    have h1 := hin s hs
    have h2 := hpos s hs
    rw [stop] at h1
    rw [Finset.mem_Ico]
    omega
  have hcard := Finset.card_le_card hsub
  rwa [List.toFinset_card_of_nodup (h.nodup hpos), List.length_map, Nat.card_Ico] at hcard

end

namespace FreeList

/-! ## Handing out -/

/-- Hand out `n` bytes of the first span that has them; what is left over stays, if a header of
`hdr` bytes has room in it. -/
def take (hdr n : ℕ) : List Span → Option (Span × List Span)
  | [] => none
  | b :: bs =>
    if b.size < n then (take hdr n bs).map fun r => (r.1, b :: r.2)
    else if n + hdr ≤ b.size then some (⟨b.addr, n⟩, ⟨b.addr + n, b.size - n⟩ :: bs)
    else some (b, bs)

variable {hdr n : ℕ} {l l' pre post rest : List Span} {b c x : Span}

/-- What is done with the span that was found. -/
def cut (hdr n : ℕ) (b : Span) : Span × List Span :=
  if n + hdr ≤ b.size then (⟨b.addr, n⟩, [⟨b.addr + n, b.size - n⟩]) else (b, [])

/-- The first span with room is the one that is cut, -/
theorem take_append (hdr : ℕ) (hpre : ∀ s ∈ pre, s.size < n) (hb : n ≤ b.size) :
    take hdr n (pre ++ b :: post) = some ((cut hdr n b).1, pre ++ (cut hdr n b).2 ++ post) := by
  induction pre with
  | nil =>
    rw [List.nil_append, take, if_neg (Nat.not_lt.mpr hb), cut]
    split
    · rfl
    · rfl
  | cons s pre ih =>
    rw [List.forall_mem_cons] at hpre
    rw [List.cons_append, take, if_pos hpre.1, ih hpre.2]
    rfl

/-- and without one there is nothing. -/
theorem take_eq_none (hl : ∀ s ∈ l, s.size < n) : take hdr n l = none := by
  induction l with
  | nil => rfl
  | cons s l ih =>
    rw [List.forall_mem_cons] at hl
    rw [take, if_pos hl.1, ih hl.2]
    rfl

/-- The two cases of a search. -/
theorem exists_first (n : ℕ) (l : List Span) : (∀ s ∈ l, s.size < n) ∨
    ∃ pre b post, l = pre ++ b :: post ∧ (∀ s ∈ pre, s.size < n) ∧ n ≤ b.size := by
  induction l with
  | nil => exact Or.inl nofun
  | cons s l ih =>
    by_cases hs : s.size < n
    · rcases ih with h | ⟨pre, b, post, rfl, hpre, hb⟩
      · exact Or.inl (List.forall_mem_cons.mpr ⟨hs, h⟩)
      · exact Or.inr ⟨s :: pre, b, post, rfl, List.forall_mem_cons.mpr ⟨hs, hpre⟩, hb⟩
    · exact Or.inr ⟨[], s, l, rfl, nofun, Nat.not_lt.mp hs⟩

/-- The two parts of a span are the span. -/
theorem separate_cut (h : Separate (b :: rest)) (hb : n ≤ b.size) :
    Separate ((cut hdr n b).1 :: ((cut hdr n b).2 ++ rest)) := by
  rw [cut]
  split
  · refine Separate.split ?_
    rwa [Nat.add_sub_cancel' hb]
  · exact h

theorem separate_take (hdr : ℕ) (hb : n ≤ b.size) (h : Separate (pre ++ b :: post ++ rest)) :
    Separate ((cut hdr n b).1 :: (pre ++ (cut hdr n b).2 ++ post ++ rest)) := by
  have h1 : (pre ++ b :: post ++ rest).Perm (b :: (pre ++ (post ++ rest))) := by
    rw [List.append_assoc]
    exact List.perm_middle
  refine (separate_cut (h.perm h1) hb).perm (List.Perm.cons _ ?_)
  calc (cut hdr n b).2 ++ (pre ++ (post ++ rest))
      = ((cut hdr n b).2 ++ pre) ++ (post ++ rest) := (List.append_assoc _ _ _).symm
    _ |>.Perm ((pre ++ (cut hdr n b).2) ++ (post ++ rest)) := List.perm_append_comm.append_right _
    _ = pre ++ (cut hdr n b).2 ++ post ++ rest := (List.append_assoc _ _ _).symm

/-! ## Taking back -/

/-- `b`, with the span above it when they touch, and what is left of `post`. -/
def joinNext (b : Span) : List Span → Span × List Span
  | [] => (b, [])
  | c :: cs => if b.stop = c.addr then (⟨b.addr, b.size + c.size⟩, cs) else (b, c :: cs)

/-- What is left of `pre`, and `b` with the span below it when they touch. -/
def joinPrev (pre : List Span) (b : Span) : List Span × Span :=
  match pre.getLast? with
  | none => (pre, b)
  | some p => if p.stop = b.addr then (pre.dropLast, ⟨p.addr, p.size + b.size⟩) else (pre, b)

/-- `b` between `pre` and `post`. -/
def place (pre : List Span) (b : Span) (post : List Span) : List Span :=
  let (b, post) := joinNext b post
  let (pre, b) := joinPrev pre b
  pre ++ b :: post

/-- Put `b` in front of the first span above it. -/
def give (b : Span) (l : List Span) : List Span :=
  place (l.takeWhile fun s => s.addr < b.addr) b (l.dropWhile fun s => s.addr < b.addr)

/-- The place is where the spans below end. -/
theorem give_append (hpre : ∀ s ∈ pre, s.addr < b.addr)
    (hpost : ∀ c ∈ post.head?, b.addr ≤ c.addr) :
    give b (pre ++ post) = place pre b post := by
  have hall : ∀ s ∈ pre, decide (s.addr < b.addr) = true := fun s hs => decide_eq_true (hpre s hs)
  have htake : post.takeWhile (fun s => decide (s.addr < b.addr)) = [] := by
    cases post with
    | nil => rfl
    | cons c cs =>
      rw [List.takeWhile_cons_of_neg]
      simpa using hpost c rfl
  have hdrop : post.dropWhile (fun s => decide (s.addr < b.addr)) = post := by
    cases post with
    | nil => rfl
    | cons c cs =>
      rw [List.dropWhile_cons_of_neg]
      simpa using hpost c rfl
  rw [give, List.takeWhile_append_of_pos hall, List.dropWhile_append_of_pos hall, htake, hdrop,
    List.append_nil]

/-- There is always a place. -/
theorem exists_place (b : Span) (l : List Span) : ∃ pre post, l = pre ++ post ∧
    (∀ s ∈ pre, s.addr < b.addr) ∧ ∀ c ∈ post.head?, b.addr ≤ c.addr := by
  induction l with
  | nil => exact ⟨[], [], rfl, nofun, nofun⟩
  | cons s l ih =>
    by_cases hs : s.addr < b.addr
    · obtain ⟨pre, post, rfl, hpre, hpost⟩ := ih
      exact ⟨s :: pre, post, rfl, List.forall_mem_cons.mpr ⟨hs, hpre⟩, hpost⟩
    · refine ⟨[], s :: l, rfl, nofun, fun c hc => ?_⟩
      obtain rfl := Option.some.inj hc
      exact Nat.not_lt.mp hs

/-- Either nothing is above that touches, or it is the first of `post`. -/
theorem joinNext_cases (b : Span) (post : List Span) : joinNext b post = (b, post) ∨
    ∃ c cs, post = c :: cs ∧ b.stop = c.addr ∧ joinNext b post =
    (⟨b.addr, b.size + c.size⟩, cs) := by
  cases post with
  | nil => exact Or.inl rfl
  | cons c cs =>
    rw [joinNext]
    split
    · next htouch => exact Or.inr ⟨c, cs, rfl, htouch, rfl⟩
    · exact Or.inl rfl

theorem joinNext_addr : (joinNext b post).1.addr = b.addr := by
  rcases joinNext_cases b post with h | ⟨c, cs, -, -, h⟩
  · rw [h]
  · rw [h]

theorem joinNext_subset : ∀ s ∈ (joinNext b post).2, s ∈ post := by
  rcases joinNext_cases b post with h | ⟨c, cs, rfl, -, h⟩
  · rw [h]
    exact fun _ h => h
  · rw [h]
    exact fun _ h => List.mem_cons_of_mem _ h

/-- It ends where one of the spans ended. -/
theorem joinNext_stop (b : Span) (post : List Span) :
    ∃ s ∈ b :: post, (joinNext b post).1.stop = s.stop := by
  rcases joinNext_cases b post with h | ⟨c, cs, rfl, htouch, h⟩
  · rw [h]
    exact ⟨b, List.mem_cons_self, rfl⟩
  · rw [h]
    refine ⟨c, List.mem_cons_of_mem _ List.mem_cons_self, ?_⟩
    rw [stop] at htouch
    rw [stop, stop]
    dsimp only
    omega

/-- Either nothing is below that touches, or it is the last of `pre`. -/
theorem joinPrev_cases (pre : List Span) (b : Span) : joinPrev pre b = (pre, b) ∨
    ∃ pre' p, pre = pre' ++ [p] ∧ p.stop = b.addr ∧ joinPrev pre b = (pre',
      ⟨p.addr, p.size + b.size⟩) := by
  rcases List.eq_nil_or_concat' pre with rfl | ⟨pre, p, rfl⟩
  · exact Or.inl rfl
  · rw [joinPrev, List.getLast?_concat]
    dsimp only
    split
    · next htouch =>
      rw [List.dropLast_concat]
      exact Or.inr ⟨pre, p, rfl, htouch, rfl⟩
    · exact Or.inl rfl

theorem separate_joinNext (h : Separate (b :: (post ++ rest))) :
    Separate ((joinNext b post).1 :: ((joinNext b post).2 ++ rest)) := by
  rcases joinNext_cases b post with hj | ⟨c, cs, rfl, htouch, hj⟩
  · rw [hj]
    exact h
  · have hc : (⟨b.addr + b.size, c.size⟩ : Span) = c := by rw [← stop, htouch]
    rw [hj]
    refine Separate.join ?_
    rwa [hc]

theorem separate_joinPrev (h : Separate (b :: (pre ++ rest))) :
    Separate ((joinPrev pre b).2 :: ((joinPrev pre b).1 ++ rest)) := by
  rcases joinPrev_cases pre b with hj | ⟨pre, p, rfl, htouch, hj⟩
  · rw [hj]
    exact h
  · have hb : (⟨p.addr + p.size, b.size⟩ : Span) = b := by rw [← stop, htouch]
    rw [hj]
    refine Separate.join ?_
    rw [hb]
    refine h.perm ?_
    calc (b :: (pre ++ [p] ++ rest)).Perm (b :: p :: (pre ++ rest)) := by
          rw [List.append_assoc]
          exact List.Perm.cons _ List.perm_middle
      _ |>.Perm (p :: b :: (pre ++ rest)) := List.Perm.swap _ _ _

/-- Where the span was put, the spans are the same and share no byte. -/
theorem separate_place (h : Separate (b :: (pre ++ post ++ rest))) :
    Separate (place pre b post ++ rest) := by
  have hnext : Separate (b :: (post ++ (pre ++ rest))) := by
    refine h.perm (List.Perm.cons _ ?_)
    rw [← List.append_assoc]
    exact List.perm_append_comm.append_right rest
  have hprev : Separate ((joinNext b post).1 :: (pre ++ ((joinNext b post).2 ++ rest))) := by
    refine (separate_joinNext hnext).perm (List.Perm.cons _ ?_)
    rw [← List.append_assoc, ← List.append_assoc]
    exact List.perm_append_comm.append_right rest
  refine (separate_joinPrev hprev).perm ?_
  rw [place]
  dsimp only
  rw [List.append_assoc, List.cons_append]
  exact List.perm_middle.symm

/-- What two spans that touch hand on to the one they become holds of all spans afterwards. -/
theorem forall_place {P : Span → Prop} (hj : ∀ s t : Span, P s → P t → s.stop = t.addr →
    P ⟨s.addr, s.size + t.size⟩) (hb : P b) (hpre : ∀ s ∈ pre, P s) (hpost : ∀ s ∈ post, P s) :
    ∀ s ∈ place pre b post, P s := by
  have hnext : P (joinNext b post).1 ∧ ∀ s ∈ (joinNext b post).2, P s := by
    rcases joinNext_cases b post with h | ⟨c, cs, rfl, htouch, h⟩
    · rw [h]
      exact ⟨hb, hpost⟩
    · rw [List.forall_mem_cons] at hpost
      rw [h]
      exact ⟨hj b c hb hpost.1 htouch, hpost.2⟩
  have hprev : ∀ c, P c → P (joinPrev pre c).2 ∧ ∀ s ∈ (joinPrev pre c).1, P s := by
    intro c hc
    rcases joinPrev_cases pre c with h | ⟨pre, p, rfl, htouch, h⟩
    · rw [h]
      exact ⟨hc, hpre⟩
    · rw [List.forall_mem_append, List.forall_mem_singleton] at hpre
      rw [h]
      exact ⟨hj p c hpre.2 hc htouch, hpre.1⟩
  rw [place]
  dsimp only
  rw [List.forall_mem_append, List.forall_mem_cons]
  exact ⟨(hprev _ hnext.1).2, (hprev _ hnext.1).1, hnext.2⟩

end FreeList

/-! ## Order -/

/-- In order, and no two of the spans touch. -/
def Spaced (l : List Span) : Prop := l.Pairwise fun s t => s.stop < t.addr

section

variable {hdr n : ℕ} {l l' pre post : List Span} {b x : Span}

open FreeList

theorem spaced_append : Spaced (pre ++ post) ↔
    Spaced pre ∧ Spaced post ∧ ∀ s ∈ pre, ∀ t ∈ post, s.stop < t.addr := List.pairwise_append

theorem spaced_cons : Spaced (b :: l) ↔ (∀ t ∈ l, b.stop < t.addr) ∧ Spaced l := List.pairwise_cons

/-- In order, and no two of them touch, from either side. -/
theorem Spaced.ne_addr (h : Spaced l) (hpos : ∀ s ∈ l, 0 < s.size) :
    ∀ s ∈ l, ∀ t ∈ l, s.stop ≠ t.addr := by
  induction l with
  | nil => exact nofun
  | cons b l ih =>
    rw [spaced_cons] at h
    rw [List.forall_mem_cons] at hpos
    intro s hs t ht
    rcases List.mem_cons.mp hs with rfl | hs'
    · rcases List.mem_cons.mp ht with rfl | ht'
      · rw [stop]
        omega
      · exact (h.1 t ht').ne
    · rcases List.mem_cons.mp ht with rfl | ht'
      · have := h.1 s hs'
        rw [stop] at this ⊢
        omega
      · exact ih h.2 hpos.2 s hs' t ht'

/-- Handing out leaves the order and the gaps, -/
theorem Spaced.cut (h : Spaced (pre ++ b :: post)) (hb : n ≤ b.size) :
    Spaced (pre ++ (FreeList.cut hdr n b).2 ++ post) := by
  rw [spaced_append, spaced_cons] at h
  obtain ⟨hpre, ⟨hnext, hpost⟩, hall⟩ := h
  have hskip : ∀ s ∈ pre, ∀ t ∈ post, s.stop < t.addr :=
    fun s hs t ht => hall s hs t (List.mem_cons_of_mem _ ht)
  rw [FreeList.cut, List.append_assoc]
  split
  · rw [List.singleton_append, spaced_append, spaced_cons]
    refine ⟨hpre, ⟨fun t ht => ?_, hpost⟩, fun s hs => List.forall_mem_cons.mpr ⟨?_, hskip s hs⟩⟩
    · have := hnext t ht
      rw [stop] at this ⊢
      dsimp only
      omega
    · have := hall s hs b List.mem_cons_self
      show s.stop < b.addr + n
      omega
  · exact spaced_append.mpr ⟨hpre, hpost, hskip⟩

theorem Spaced.take (h : Spaced l) (ht : FreeList.take hdr n l = some (x, l')) : Spaced l' := by
  rcases exists_first n l with hl | ⟨pre, b, post, rfl, hpre, hb⟩
  · rw [take_eq_none hl] at ht
    exact absurd ht nofun
  · rw [take_append hdr hpre hb] at ht
    obtain ⟨-, rfl⟩ := Prod.mk.inj (Option.some.inj ht)
    exact h.cut hb

theorem spaced_joinNext (hpost : Spaced post) (hb : ∀ t ∈ post, b.stop ≤ t.addr) :
    Spaced ((joinNext b post).1 :: (joinNext b post).2) := by
  cases post with
  | nil => exact List.pairwise_singleton _ _
  | cons c cs =>
    rw [spaced_cons] at hpost
    rw [joinNext]
    split
    · next htouch =>
      refine spaced_cons.mpr ⟨fun t ht => ?_, hpost.2⟩
      have := hpost.1 t ht
      rw [stop] at htouch this ⊢
      dsimp only
      omega
    · next hgap =>
      have hc := lt_of_le_of_ne (hb c List.mem_cons_self) hgap
      refine spaced_cons.mpr ⟨List.forall_mem_cons.mpr ⟨hc, fun t ht => ?_⟩, spaced_cons.mpr hpost⟩
      have := hpost.1 t ht
      rw [stop] at this
      show b.stop < t.addr
      omega

theorem spaced_joinPrev (hpre : Spaced pre) (hb : ∀ s ∈ pre, s.stop ≤ b.addr)
    (hpost : Spaced (b :: post)) :
    Spaced ((joinPrev pre b).1 ++ (joinPrev pre b).2 :: post) := by
  rcases List.eq_nil_or_concat' pre with rfl | ⟨pre, p, rfl⟩
  · exact hpost
  · rw [spaced_append] at hpre
    obtain ⟨hpre, -, hlast⟩ := hpre
    have hfar : ∀ s ∈ pre, s.stop < p.addr := fun s hs => hlast s hs p (List.mem_singleton_self p)
    rw [spaced_cons] at hpost
    rw [joinPrev, List.getLast?_concat]
    dsimp only
    have hp := hb p (List.mem_append_right _ (List.mem_singleton_self p))
    split
    · next htouch =>
      rw [List.dropLast_concat, spaced_append, spaced_cons]
      have hnext : ∀ t ∈ post, stop ⟨p.addr, p.size + b.size⟩ < t.addr := by
        intro t ht
        have := hpost.1 t ht
        rw [stop] at htouch this ⊢
        dsimp only
        omega
      refine ⟨hpre, ⟨hnext, hpost.2⟩, fun s hs => List.forall_mem_cons.mpr ⟨hfar s hs,
        fun t ht => ?_⟩⟩
      have h1 := hfar s hs
      have h2 := hnext t ht
      rw [stop] at h2
      dsimp only at h2
      omega
    · next hgap =>
      have hpb := lt_of_le_of_ne hp hgap
      rw [List.append_assoc, List.singleton_append, spaced_append, spaced_cons, spaced_cons,
        List.forall_mem_cons]
      have hnext : ∀ t ∈ post, p.stop < t.addr := by
        intro t ht
        have := hpost.1 t ht
        rw [stop] at this
        omega
      refine ⟨hpre, ⟨⟨hpb, hnext⟩, hpost⟩, fun s hs => ?_⟩
      rw [List.forall_mem_cons, List.forall_mem_cons]
      have h1 := hfar s hs
      rw [stop] at hpb
      have h3 : s.stop < b.addr := by omega
      refine ⟨h1, h3, fun t ht => ?_⟩
      have h2 := hnext t ht
      rw [stop] at h2
      omega

/-- **and so does giving back** a span that shares no byte with them. -/
theorem Spaced.give (h : Spaced l) (hb : ∀ s ∈ l, Apart b s) (hpos : 0 < b.size)
    (hl : ∀ s ∈ l, 0 < s.size) : Spaced (FreeList.give b l) := by
  obtain ⟨pre, post, rfl, hpre, hpost⟩ := exists_place b l
  rw [give_append hpre hpost, place]
  dsimp only
  obtain ⟨h1, h2, -⟩ := spaced_append.mp h
  have hbelow : ∀ s ∈ pre, s.stop ≤ b.addr := by
    intro s hs
    have h3 := hb s (List.mem_append_left _ hs)
    have h4 := hl s (List.mem_append_left _ hs)
    have h5 := hpre s hs
    rw [Apart, stop, stop] at h3
    rw [stop]
    omega
  have habove : ∀ t ∈ post, b.addr ≤ t.addr := by
    cases post with
    | nil => exact nofun
    | cons c cs =>
      have hc := hpost c rfl
      refine List.forall_mem_cons.mpr ⟨hc, fun t ht => ?_⟩
      have := (spaced_cons.mp h2).1 t ht
      rw [stop] at this
      omega
  refine spaced_joinPrev h1 ?_ (spaced_joinNext h2 fun t ht => ?_)
  · rw [joinNext_addr]
    exact hbelow
  · have h3 := hb t (List.mem_append_right _ ht)
    have h4 := hl t (List.mem_append_right _ ht)
    have h5 := habove t ht
    rw [Apart, stop, stop] at h3
    rw [stop]
    omega

end

end Aurisys
