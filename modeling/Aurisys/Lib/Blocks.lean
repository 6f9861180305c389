import Mathlib.Data.List.Chain
import Mathlib.Tactic.Ring

/-!
# Tilings of an interval by blocks

The abstract state of a coalescing allocator: a list of blocks that lie end to end over an
interval of addresses, each used or free. The granule `g` divides every size and no block is
smaller than `m`.

An allocation carves a free block, a release gives one back and glues it to its free neighbours.
What matters about both is the same: the interval stays tiled, and no two free blocks ever touch.
The second fact is local to one allocation and one release, and it is what makes a fully released
interval a single block again.

## Main definitions

* `Block`, `Tiles` — blocks, and lists of them lying end to end
* `Coalesced` — no two neighbours are free
* `carve`, `joinRight`, `joinLeft` — the block lists of an allocation and of a release

## Main results

* `Tiles.carve`, `Tiles.joinRight`, `Tiles.joinLeft`
* `coalesced_carve`, `coalesced_release`
* `eq_singleton_of_forall_free` — a coalesced tiling without used blocks is one block
-/

namespace Aurisys

/-- A block of memory, used or free. -/
structure Block where
  addr : ℕ
  size : ℕ
  used : Bool

namespace Blocks

variable {g m : ℕ}

/-! ## Tilings -/

/-- The blocks lie end to end and fill `[lo, hi)`, in sizes that are multiples of `g` and at
least `m`. -/
def Tiles (g m : ℕ) : ℕ → ℕ → List Block → Prop
  | lo, hi, [] => lo = hi
  | lo, hi, b :: bs => b.addr = lo ∧ m ≤ b.size ∧ g ∣ b.size ∧ Tiles g m (lo + b.size) hi bs

@[simp] theorem tiles_nil {lo hi : ℕ} : Tiles g m lo hi [] ↔ lo = hi := Iff.rfl

@[simp] theorem tiles_cons {lo hi : ℕ} {b : Block} {bs : List Block} :
    Tiles g m lo hi (b :: bs) ↔
      b.addr = lo ∧ m ≤ b.size ∧ g ∣ b.size ∧ Tiles g m (lo + b.size) hi bs := Iff.rfl

theorem tiles_append {hi : ℕ} {xs ys : List Block} : ∀ {lo : ℕ},
    Tiles g m lo hi (xs ++ ys) ↔ ∃ mid, Tiles g m lo mid xs ∧ Tiles g m mid hi ys := by
  induction xs with
  | nil => intro lo; simp
  | cons x xs ih =>
    intro lo
    simp only [List.cons_append, tiles_cons, ih]
    constructor
    · rintro ⟨ha, hm, hg, mid, h1, h2⟩
      exact ⟨mid, ⟨ha, hm, hg, h1⟩, h2⟩
    · rintro ⟨mid, ⟨ha, hm, hg, h1⟩, h2⟩
      exact ⟨ha, hm, hg, mid, h1, h2⟩

theorem Tiles.le {hi : ℕ} {bs : List Block} : ∀ {lo : ℕ}, Tiles g m lo hi bs → lo ≤ hi := by
  induction bs with
  | nil => intro lo h; exact Nat.le_of_eq h
  | cons b bs ih => intro lo h; have := ih h.2.2.2; omega

/-- A tiling has room for the smallest size of each of its blocks. -/
theorem Tiles.length_mul_le {hi : ℕ} {bs : List Block} : ∀ {lo : ℕ}, Tiles g m lo hi bs →
    bs.length * m ≤ hi - lo := by
  induction bs with
  | nil => intro lo _; simp
  | cons b bs ih =>
    intro lo h
    have h1 := ih h.2.2.2
    have h2 := h.2.2.2.le
    have h3 := h.2.1
    rw [List.length_cons, Nat.add_mul]
    omega

theorem Tiles.bounds {hi : ℕ} {bs : List Block} : ∀ {lo : ℕ}, Tiles g m lo hi bs →
    ∀ b ∈ bs, lo ≤ b.addr ∧ b.addr + b.size ≤ hi ∧ m ≤ b.size ∧ g ∣ b.size := by
  induction bs with
  | nil => intro lo _ b hb; simp at hb
  | cons c bs ih =>
    intro lo h b hb
    have hle := h.2.2.2.le
    rcases List.mem_cons.mp hb with rfl | hb
    · exact ⟨h.1.ge, by rw [h.1]; exact hle, h.2.1, h.2.2.1⟩
    · have := ih h.2.2.2 b hb
      exact ⟨by omega, this.2.1, this.2.2.1, this.2.2.2⟩

theorem Tiles.dvd_addr {hi : ℕ} {bs : List Block} : ∀ {lo : ℕ}, Tiles g m lo hi bs → g ∣ lo →
    ∀ b ∈ bs, g ∣ b.addr := by
  induction bs with
  | nil => intro lo _ _ b hb; simp at hb
  | cons c bs ih =>
    intro lo h hlo b hb
    rcases List.mem_cons.mp hb with rfl | hb
    · rw [h.1]; exact hlo
    · exact ih h.2.2.2 (Nat.dvd_add hlo h.2.2.1) b hb

/-- The part of a tiling to the left of a block ends where the block starts, the part to the
right starts where it ends. -/
theorem Tiles.around {lo hi : ℕ} {pre post : List Block} {b : Block}
    (h : Tiles g m lo hi (pre ++ b :: post)) :
    Tiles g m lo b.addr pre ∧ m ≤ b.size ∧ g ∣ b.size ∧
      Tiles g m (b.addr + b.size) hi post := by
  obtain ⟨mid, hpre, ha, hm, hg, hpost⟩ := tiles_append.mp h
  subst ha
  exact ⟨hpre, hm, hg, hpost⟩

theorem tiles_around {lo hi : ℕ} {pre post : List Block} {b : Block}
    (hpre : Tiles g m lo b.addr pre) (hm : m ≤ b.size) (hg : g ∣ b.size)
    (hpost : Tiles g m (b.addr + b.size) hi post) : Tiles g m lo hi (pre ++ b :: post) :=
  tiles_append.mpr ⟨b.addr, hpre, rfl, hm, hg, hpost⟩

/-- Two blocks of a tiling that share an address are the same block. -/
theorem Tiles.eq_of_overlap {hi : ℕ} {bs : List Block} : ∀ {lo : ℕ},
    Tiles g m lo hi bs → ∀ b ∈ bs, ∀ c ∈ bs, ∀ x, b.addr ≤ x → x < b.addr + b.size →
      c.addr ≤ x → x < c.addr + c.size → b = c := by
  induction bs with
  | nil => intro lo _ b hb; simp at hb
  | cons d bs ih =>
    intro lo h b hb c hc x hbx hxb hcx hxc
    have hd := h.1
    rcases List.mem_cons.mp hb with rfl | hb' <;> rcases List.mem_cons.mp hc with rfl | hc'
    · rfl
    · have := (h.2.2.2.bounds c hc').1; omega
    · have := (h.2.2.2.bounds b hb').1; omega
    · exact ih h.2.2.2 b hb' c hc' x hbx hxb hcx hxc

theorem Tiles.eq_of_addr_eq (hm : 0 < m) {lo hi : ℕ} {bs : List Block} (h : Tiles g m lo hi bs)
    {b c : Block} (hb : b ∈ bs) (hc : c ∈ bs) (hbc : b.addr = c.addr) : b = c := by
  have h1 := (h.bounds b hb).2.2.1
  have h2 := (h.bounds c hc).2.2.1
  exact h.eq_of_overlap b hb c hc b.addr (Nat.le_refl _) (by omega) (by omega) (by omega)

/-! ## Free blocks never touch -/

/-- No two neighbours are both free. -/
def Coalesced (bs : List Block) : Prop := bs.IsChain fun b c => b.used ∨ c.used

theorem coalesced_append {xs ys : List Block} :
    Coalesced (xs ++ ys) ↔ Coalesced xs ∧ Coalesced ys ∧
      ∀ x ∈ xs.getLast?, ∀ y ∈ ys.head?, x.used ∨ y.used :=
  List.isChain_append

/-- A used block separates what lies on its two sides. -/
theorem coalesced_around {pre post : List Block} {b : Block} (hb : b.used = true) :
    Coalesced (pre ++ b :: post) ↔ Coalesced pre ∧ Coalesced post := by
  rw [coalesced_append]
  constructor
  · rintro ⟨h1, h2, -⟩
    exact ⟨h1, List.IsChain.tail h2⟩
  · rintro ⟨h1, h2⟩
    refine ⟨h1, ?_, ?_⟩
    · cases post with
      | nil => exact List.isChain_singleton b
      | cons c post => exact List.isChain_cons_cons.mpr ⟨Or.inl hb, h2⟩
    · intro x _ y hy
      simp only [List.head?_cons, Option.mem_def, Option.some.injEq] at hy
      subst hy
      exact Or.inr hb

/-- **Nothing is stranded.** A tiling in which free blocks never touch and no block is used is a
single free block. -/
theorem eq_singleton_of_forall_free {lo hi : ℕ} {bs : List Block} (ht : Tiles g m lo hi bs)
    (hc : Coalesced bs) (hlt : lo < hi) (hfree : ∀ b ∈ bs, b.used = false) :
    bs = [⟨lo, hi - lo, false⟩] := by
  match bs, ht, hc, hfree with
  | [], ht, _, _ => exact absurd ht (Nat.ne_of_lt hlt)
  | [b], ht, _, hfree =>
    obtain ⟨ha, -, -, hend⟩ := ht
    have hu := hfree b (by simp)
    have hs : b.size = hi - lo := by rw [tiles_nil] at hend; omega
    cases b
    simp_all
  | b :: c :: bs, _, hc, hfree =>
    have := (List.isChain_cons_cons.mp hc).1
    simp [hfree b (by simp), hfree c (by simp)] at this

/-! ## Allocating -/

/-- What becomes of a free block when `n` bytes of it are handed out: the rest is a free block of
its own when it is large enough to be one. -/
def carve (m : ℕ) (b : Block) (n : ℕ) : List Block :=
  if b.size - n < m then [⟨b.addr, b.size, true⟩]
  else [⟨b.addr, n, true⟩, ⟨b.addr + n, b.size - n, false⟩]

theorem Tiles.carve {lo hi n : ℕ} {pre post : List Block} {b : Block}
    (h : Tiles g m lo hi (pre ++ b :: post)) (hn : n ≤ b.size) (hmn : m ≤ n) (hgn : g ∣ n) :
    Tiles g m lo hi (pre ++ Blocks.carve m b n ++ post) := by
  obtain ⟨hpre, hm, hg, hpost⟩ := h.around
  rw [Blocks.carve]
  split
  · rw [List.append_assoc]
    exact tiles_around (b := ⟨b.addr, b.size, true⟩) hpre hm hg hpost
  · have hsum : b.addr + n + (b.size - n) = b.addr + b.size := by omega
    rw [List.append_assoc]
    refine tiles_around (b := ⟨b.addr, n, true⟩) hpre hmn hgn ?_
    refine ⟨rfl, by simp only; omega, Nat.dvd_sub hg hgn, ?_⟩
    change Tiles g m (b.addr + n + (b.size - n)) hi post
    rw [hsum]
    exact hpost

/-- The used block at the front of a carved block. -/
theorem carve_eq_cons (m : ℕ) (b : Block) (n : ℕ) :
    ∃ k rest, carve m b n = ⟨b.addr, k, true⟩ :: rest ∧
    (n ≤ b.size → n ≤ k ∧ k ≤ b.size) ∧ ∀ c ∈ rest, c.used = false := by
  rw [carve]
  split
  · exact ⟨b.size, [], rfl, fun h => ⟨h, Nat.le_refl _⟩, by simp⟩
  · exact ⟨n, _, rfl, fun h => ⟨Nat.le_refl _, h⟩, by simp⟩

theorem coalesced_carve {pre post : List Block} {b : Block} {n : ℕ}
    (h : Coalesced (pre ++ b :: post)) (hb : b.used = false) :
    Coalesced (pre ++ carve m b n ++ post) := by
  obtain ⟨hpre, hbp, -⟩ := coalesced_append.mp h
  have hpost : Coalesced post := List.IsChain.tail hbp
  rw [carve, List.append_assoc]
  split
  · exact (coalesced_around rfl).mpr ⟨hpre, hpost⟩
  · refine (coalesced_around rfl).mpr ⟨hpre, ?_⟩
    -- the rest of the free block inherits the used neighbour the block had
    cases post with
    | nil => exact List.isChain_singleton _
    | cons c post =>
      have hc : c.used = true := by simpa [hb] using (List.isChain_cons_cons.mp hbp).1
      exact List.isChain_cons_cons.mpr ⟨Or.inr hc, hpost⟩

/-- The same when the block is first cut in two and only its right part is handed out. -/
theorem coalesced_cut_carve {pre post : List Block} {b l r : Block} {n : ℕ}
    (h : Coalesced (pre ++ b :: post)) (hb : b.used = false) (hl : l.used = false)
    (hr : r.used = false) : Coalesced (pre ++ l :: (carve m r n ++ post)) := by
  have hpost : Coalesced (r :: post) := by
    have hbp := (coalesced_append.mp h).2.1
    cases post with
    | nil => exact List.isChain_singleton _
    | cons c post =>
      obtain ⟨hc, htl⟩ := List.isChain_cons_cons.mp hbp
      exact List.isChain_cons_cons.mpr ⟨by simpa [hb, hr] using hc, htl⟩
  have hpre : Coalesced (pre ++ [l]) := by
    obtain ⟨h1, -, h3⟩ := coalesced_append.mp h
    refine coalesced_append.mpr ⟨h1, List.isChain_singleton _, fun x hx y hy => ?_⟩
    simp only [List.head?_cons, Option.mem_def, Option.some.injEq] at hy
    have := h3 x hx b (by simp)
    simpa [← hy, hb, hl] using this
  obtain ⟨k, rest, heq, -⟩ := carve_eq_cons m r n
  have hcarve : Coalesced ([] ++ carve m r n ++ post) := coalesced_carve hpost hr
  rw [heq] at hcarve ⊢
  rw [show pre ++ l :: ((⟨r.addr, k, true⟩ :: rest) ++ post)
    = (pre ++ [l]) ++ ⟨r.addr, k, true⟩ :: (rest ++ post) by simp]
  exact (coalesced_around rfl).mpr ⟨hpre, List.IsChain.tail hcarve⟩

/-! ## Releasing -/

/-- Glue the right neighbour to `b` when it is free. -/
def joinRight (b : Block) : List Block → List Block
  | [] => [b]
  | c :: post => if c.used then b :: c :: post else ⟨b.addr, b.size + c.size, b.used⟩ :: post

/-- Glue the block at the front of `bs` to the last block of `pre` when that is free. -/
def joinLeft (pre bs : List Block) : List Block :=
  match pre.getLast?, bs with
  | some p, b :: post =>
    if p.used then pre ++ b :: post
    else pre.dropLast ++ ⟨p.addr, p.size + b.size, p.used⟩ :: post
  | _, _ => pre ++ bs

@[simp] theorem joinLeft_nil (bs : List Block) : joinLeft [] bs = bs := rfl

@[simp] theorem joinLeft_concat (pre post : List Block) (p b : Block) :
    joinLeft (pre ++ [p]) (b :: post) =
      if p.used then pre ++ [p] ++ b :: post
      else pre ++ ⟨p.addr, p.size + b.size, p.used⟩ :: post := by
  simp [joinLeft]

/-- Gluing to the right keeps the block's address, its use, and the used blocks behind it. -/
theorem joinRight_eq_cons (b : Block) (post : List Block) : ∃ k post',
    joinRight b post = ⟨b.addr, k, b.used⟩ :: post' ∧ post' <:+ post ∧
      (∀ c ∈ post, c.used → c ∈ post') ∧
      (Coalesced post → ∀ c ∈ post'.head?, c.used = true) := by
  cases post with
  | nil => exact ⟨b.size, [], rfl, List.suffix_refl _, by simp, by simp⟩
  | cons c post =>
    by_cases hc : c.used = true
    · refine ⟨b.size, c :: post, ?_, List.suffix_refl _, fun d hd _ => hd, ?_⟩
      · rw [joinRight, if_pos hc]
      · intro _ d hd
        simp only [List.head?_cons, Option.mem_def, Option.some.injEq] at hd
        rw [← hd, hc]
    · refine ⟨b.size + c.size, post, ?_, List.suffix_cons _ _, ?_, ?_⟩
      · rw [joinRight, if_neg hc]
      · intro d hd hu
        rcases List.mem_cons.mp hd with rfl | hd
        · exact absurd hu hc
        · exact hd
      · intro hco d hd
        cases post with
        | nil => simp at hd
        | cons e post =>
          simp only [List.head?_cons, Option.mem_def, Option.some.injEq] at hd
          subst hd
          simpa [hc] using (List.isChain_cons_cons.mp hco).1

theorem Tiles.joinRight {lo hi : ℕ} {pre post : List Block} {b : Block}
    (h : Tiles g m lo hi (pre ++ b :: post)) :
    Tiles g m lo hi (pre ++ Blocks.joinRight b post) := by
  cases post with
  | nil => exact h
  | cons c post =>
    rw [Blocks.joinRight]
    split
    · exact h
    · obtain ⟨hpre, hm, hg, hca, hcm, hcg, hpost⟩ := h.around
      refine tiles_around (b := ⟨b.addr, b.size + c.size, b.used⟩) hpre ?_ (Nat.dvd_add hg hcg) ?_
      · exact Nat.le_trans hm (Nat.le_add_right _ _)
      · rw [← Nat.add_assoc]
        exact hpost

theorem Tiles.joinLeft {lo hi : ℕ} {pre bs : List Block} (h : Tiles g m lo hi (pre ++ bs)) :
    Tiles g m lo hi (Blocks.joinLeft pre bs) := by
  rcases List.eq_nil_or_concat' pre with rfl | ⟨pre, p, rfl⟩
  · exact h
  · cases bs with
    | nil => simpa [Blocks.joinLeft] using h
    | cons b post =>
      rw [joinLeft_concat]
      split
      · exact h
      · rw [List.append_assoc] at h
        obtain ⟨hpre, hm, hg, hba, hbm, hbg, hpost⟩ := h.around
        refine tiles_around (b := ⟨p.addr, p.size + b.size, p.used⟩) hpre ?_
          (Nat.dvd_add hg hbg) ?_
        · exact Nat.le_trans hm (Nat.le_add_right _ _)
        · rw [← Nat.add_assoc]
          exact hpost

/-- The used blocks of a glued list are those it was glued from. -/
theorem mem_joinLeft_used {pre post : List Block} {b c : Block} (hb : b.used = false)
    (hc : c.used = true) : c ∈ joinLeft pre (b :: post) ↔ c ∈ pre ∨ c ∈ post := by
  have hcb : c ≠ b := by rintro rfl; simp [hb] at hc
  rcases List.eq_nil_or_concat' pre with rfl | ⟨pre, p, rfl⟩
  · simp [hcb]
  · rw [joinLeft_concat]
    split
    · simp [hcb, or_assoc]
    · next hp =>
      have hcp : c ≠ p := by rintro rfl; exact hp hc
      have hcg : c ≠ ⟨p.addr, p.size + b.size, p.used⟩ := by rintro rfl; exact hp hc
      simp [hcp, hcg]

/-- **A release keeps free blocks apart.** The block given back is glued on both sides, so what
remains beside it is used. -/
theorem coalesced_release {pre post : List Block} {b : Block}
    (hpre : Coalesced pre) (hpost : Coalesced post) :
    Coalesced (joinLeft pre (joinRight b post)) := by
  obtain ⟨k, post', heq, hsuf, -, hhead⟩ := joinRight_eq_cons b post
  have hpost' : Coalesced post' := by
    obtain ⟨front, rfl⟩ := hsuf
    exact (coalesced_append.mp hpost).2.1
  -- a block of any size in front of `post'` leaves it coalesced
  have hcons : ∀ c : Block, Coalesced (c :: post') := by
    intro c
    cases post' with
    | nil => exact List.isChain_singleton _
    | cons d post' =>
      exact List.isChain_cons_cons.mpr ⟨Or.inr (hhead hpost d (by simp)), hpost'⟩
  rw [heq]
  rcases List.eq_nil_or_concat' pre with rfl | ⟨pre, p, rfl⟩
  · exact hcons _
  · rw [joinLeft_concat]
    split
    · next hp =>
      refine coalesced_append.mpr ⟨hpre, hcons _, ?_⟩
      intro x hx y _
      simp only [List.getLast?_append, List.getLast?_singleton, Option.some_or, Option.mem_def,
        Option.some.injEq] at hx
      exact Or.inl (hx ▸ hp)
    · next hp =>
      obtain ⟨h1, -, h3⟩ := coalesced_append.mp hpre
      refine coalesced_append.mpr ⟨h1, hcons _, ?_⟩
      intro x hx y hy
      simp only [List.head?_cons, Option.mem_def, Option.some.injEq] at hy
      have := h3 x hx p (by simp)
      rw [← hy]
      exact this

end Blocks

end Aurisys
