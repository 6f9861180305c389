import Aurisys.Kernel.Groups
import Aurisys.Lib.Usage
import Mathlib.Algebra.BigOperators.Group.Finset.Basic
import Mathlib.Tactic.Abel

/-!
# What the spaces hold

A space holds the page it is in, its four directories, and its two tables as long as they are not
those of a group. A group holds its page and its two tables. Every call on spaces moves pages
between the heap and these holders and loses none of them: what is on the bill of the spaces before
the call is on it afterwards, but for what the call itself took or gave back.

The one call that takes a page for nobody here is a fault: the copy it makes is known to the tables
only, and nothing that ends a space looks for it there.

## Main definitions

* `Own` — the space has tables of its own
* `holds` — the pages of some spaces and groups
* `Balanced` — these pages are out, each once, with so much in use besides
* `Copies` — a fault makes a copy

## Main results

* `Balanced.create`, `Balanced.share`, `Balanced.fault`, `Balanced.destroy`
-/

namespace Aurisys

open Pages PageAlloc UsageStats

namespace Paging

variable {H : Type} [PageAlloc H] {m m' : Mmu H} {S G : Finset ℕ} {s g p c n : ℕ}
  {R : Multiset ℕ} {rest : Set ℕ} {base : ℕ}

/-- The tables of the space are its own, and go with it. -/
def Own (m : Mmu H) (s : ℕ) : Prop :=
  (m.spaces s).cow = 0 ∨ (m.spaces s).ptCode ≠ (m.groups (m.spaces s).cow).ptCode

instance (m : Mmu H) (s : ℕ) : Decidable (Own m s) := inferInstanceAs (Decidable (_ ∨ _))

/-- The pages of one space. -/
def spaceHolds (m : Mmu H) (s : ℕ) : Multiset ℕ :=
  (spacePages m s : Multiset ℕ) + if Own m s then (ownPages m s : Multiset ℕ) else 0

/-- The pages of one group. -/
def groupHolds (m : Mmu H) (g : ℕ) : Multiset ℕ := Pool.groupAll m g

/-- The pages of the spaces `S` and of the groups `G`. -/
def holds (m : Mmu H) (S G : Finset ℕ) : Multiset ℕ :=
  ∑ s ∈ S, spaceHolds m s + ∑ g ∈ G, groupHolds m g

/-- The groups that the spaces name. -/
def groupSet (m : Mmu H) (S : Finset ℕ) : Finset ℕ := (S.image fun s => (m.spaces s).cow).erase 0

omit [PageAlloc H] in
theorem mem_groupSet : g ∈ groupSet m S ↔ g ≠ 0 ∧ (members m S g).Nonempty := by
  rw [groupSet, Finset.mem_erase, Finset.mem_image]
  refine and_congr_right fun _ => ?_
  simp [members, Finset.Nonempty]

omit [PageAlloc H] in
/-- The groups that are counted are those that are named. -/
theorem Counted.eq_groupSet (hc : Counted m S G) : G = groupSet m S := by
  ext g
  rw [hc.mem, mem_groupSet]

omit [PageAlloc H] in
theorem counted_groupSet (h : ∀ g ∈ groupSet m S, (m.groups g).refs = (members m S g).card) :
    Counted m S (groupSet m S) :=
  ⟨fun _ => mem_groupSet, h⟩

/-- The pages of the spaces and the groups and those in `R` are out, each once, and the counts of
the groups are right. -/
structure Balanced [UsageStats H] (rest : Set ℕ) (base : ℕ) (m : Mmu H) (S G : Finset ℕ)
    (R : Multiset ℕ) : Prop where
  bill : Bill rest base m.heap (holds m S G + R)
  counted : Counted m S G

/-! ## Holding the same -/

omit [PageAlloc H] in
/-- A group holds what it did when its tables are the same. -/
theorem groupHolds_congr (h : ∀ h, (m'.groups g).pt h = (m.groups g).pt h) :
    groupHolds m' g = groupHolds m g := by
  rw [groupHolds, groupHolds, Pool.groupAll, Pool.groupAll,
    show (m'.groups g).ptCode = (m.groups g).ptCode from h .code,
    show (m'.groups g).ptHeap = (m.groups g).ptHeap from h .heap]

/-- The two spaces hold the same pages and name the same group. -/
structure SameHold (a b : Space) : Prop where
  pd : b.pd = a.pd
  pt : ∀ h, b.pt h = a.pt h
  cow : b.cow = a.cow

theorem SameHold.refl (a : Space) : SameHold a a := ⟨rfl, fun _ => rfl, rfl⟩

theorem SameHold.trans {a b c : Space} (h : SameHold a b) (h' : SameHold b c) : SameHold a c :=
  ⟨h'.pd.trans h.pd, fun i => (h'.pt i).trans (h.pt i), h'.cow.trans h.cow⟩

/-- The spaces and the groups hold the same pages. -/
structure SamePages (m m' : Mmu H) : Prop where
  heap : m'.heap = m.heap
  boot : m'.boot = m.boot
  groups : m'.groups = m.groups
  spaces : ∀ s, SameHold (m.spaces s) (m'.spaces s)

omit [PageAlloc H] in
theorem SamePages.refl (m : Mmu H) : SamePages m m := ⟨rfl, rfl, rfl, fun _ => .refl _⟩

omit [PageAlloc H] in
theorem SamePages.trans {m'' : Mmu H} (h : SamePages m m') (h' : SamePages m' m'') :
    SamePages m m'' :=
  ⟨h'.heap.trans h.heap, h'.boot.trans h.boot, h'.groups.trans h.groups,
    fun s => (h.spaces s).trans (h'.spaces s)⟩

omit [PageAlloc H] in
theorem spaceHolds_congr (hs : SameHold (m.spaces s) (m'.spaces s))
    (hg : (m.spaces s).cow ≠ 0 →
      (m'.groups (m.spaces s).cow).ptCode = (m.groups (m.spaces s).cow).ptCode) :
    spaceHolds m' s = spaceHolds m s := by
  have hcode : (m'.spaces s).ptCode = (m.spaces s).ptCode := hs.pt .code
  have hheap : (m'.spaces s).ptHeap = (m.spaces s).ptHeap := hs.pt .heap
  have hown : Own m' s ↔ Own m s := by
    rw [Own, Own, hs.cow, hcode]
    by_cases h0 : (m.spaces s).cow = 0
    · exact iff_of_true (Or.inl h0) (Or.inl h0)
    · rw [hg h0]
  simp only [spaceHolds, spacePages, ownPages, hs.pd, hcode, hheap, hown]

omit [PageAlloc H] in
theorem holds_congr (hs : ∀ s ∈ S, SameHold (m.spaces s) (m'.spaces s))
    (hg : ∀ g h, (m'.groups g).pt h = (m.groups g).pt h) : holds m' S G = holds m S G := by
  rw [holds, holds]
  congr 1
  · exact Finset.sum_congr rfl fun s h => spaceHolds_congr (hs s h) fun _ => hg _ .code
  · exact Finset.sum_congr rfl fun g _ => groupHolds_congr (hg g)

omit [PageAlloc H] in
theorem mem_holds_group (hg : g ∈ G) : g ∈ holds m S G := by
  rw [holds, Multiset.mem_add]
  refine Or.inr (Multiset.mem_sum.mpr ⟨g, hg, ?_⟩)
  simp [groupHolds, Pool.groupAll]

omit [PageAlloc H] in
theorem mem_holds_space (hs : s ∈ S) : s ∈ holds m S G := by
  rw [holds, Multiset.mem_add]
  refine Or.inl (Multiset.mem_sum.mpr ⟨s, hs, ?_⟩)
  simp [spaceHolds, spacePages]

/-- Leaving a group changes nothing that a space holds. -/
theorem spaceHolds_leaveGroup (m : Mmu H) (p x : ℕ) :
    spaceHolds (m.leaveGroup p) x = spaceHolds m x := by
  by_cases hst : m.Strayed p
  swap
  · rw [Mmu.leaveGroup_of_not_strayed hst]
  have hpt : ∀ g h, ((m.leaveGroup p).groups g).pt h = (m.groups g).pt h := fun g h => by
    rw [Mmu.leaveGroup_of_strayed hst]
    exact pt_dropGroup m _ g h
  by_cases hx : x = p
  · subst hx
    have hspace : (m.leaveGroup x).spaces x = { m.spaces x with cow := 0 } := by
      rw [Mmu.leaveGroup_of_strayed hst, Mmu.setCow, Mmu.setSpace_spaces, Function.update_self,
        dropGroup_eq]
      rfl
    have hown : Own m x := Or.inr hst.2
    have hown' : Own (m.leaveGroup x) x := Or.inl (congrArg Space.cow hspace)
    simp only [spaceHolds, if_pos hown, if_pos hown', spacePages, ownPages, hspace]
  · exact spaceHolds_congr (by rw [Mmu.leaveGroup_spaces hx]; exact .refl _) fun _ => hpt _ .code

theorem groupHolds_leaveGroup (m : Mmu H) (p g : ℕ) :
    groupHolds (m.leaveGroup p) g = groupHolds m g := by
  by_cases hst : m.Strayed p
  · rw [Mmu.leaveGroup_of_strayed hst]
    exact groupHolds_congr fun h => pt_dropGroup m _ g h
  · rw [Mmu.leaveGroup_of_not_strayed hst]

omit [PageAlloc H] in
/-- The groups that are left hold what the old ones did, but for what is given back. -/
theorem sum_survivors (hc : Counted m S G) (hp : p ∈ S) (h0 : (m.spaces p).cow ≠ 0) :
    (groupPages m (m.spaces p).cow : Multiset ℕ) + ∑ g ∈ survivors m p G, groupHolds m g
      = ∑ g ∈ G, groupHolds m g := by
  have hmem : (m.spaces p).cow ∈ G := (hc.mem _).mpr ⟨h0, p, Finset.mem_filter.mpr ⟨hp, rfl⟩⟩
  rw [groupPages, survivors]
  by_cases h1 : (m.groups (m.spaces p).cow).refs - 1 = 0
  · rw [if_pos h1, if_pos ⟨h0, h1⟩]
    exact Finset.add_sum_erase G (groupHolds m) hmem
  · rw [if_neg h1, if_neg fun h => h1 h.2]
    exact zero_add _

variable [UsageStats H]

theorem Balanced.live_space (hb : Balanced rest base m S G R) (hs : s ∈ S) :
    (live m.heap s).isSome :=
  hb.bill.live (Multiset.mem_add.mpr (Or.inl (mem_holds_space hs)))

theorem Balanced.ne_zero (hb : Balanced rest base m S G R) (hs : s ∈ S) : s ≠ 0 := by
  rintro rfl
  have := hb.live_space hs
  rw [live_zero] at this
  cases this

/-- A page that is not out belongs to no group that is named. -/
theorem Balanced.members_fresh (hb : Balanced rest base m S G R) (h0 : g ≠ 0)
    (hg : live m.heap g = none) : g ∉ G ∧ members m S g = ∅ := by
  have hnot : g ∉ G := fun h => by
    have := hb.bill.live (Multiset.mem_add.mpr (Or.inl (mem_holds_group h)))
    rw [hg] at this
    cases this
  refine ⟨hnot, Finset.not_nonempty_iff_eq_empty.mp fun h => hnot ?_⟩
  exact (hb.counted.mem g).mpr ⟨h0, h⟩

/-- What changes neither the heap nor the holders. -/
theorem Balanced.congr (hb : Balanced rest base m S G R)
    (hs : ∀ s ∈ S, SameHold (m.spaces s) (m'.spaces s)) (hg : m'.groups = m.groups)
    (hh : m'.heap = m.heap) : Balanced rest base m' S G R := by
  refine ⟨?_, hb.counted.congr (fun s h => (hs s h).cow) fun g => by rw [hg]⟩
  rw [holds_congr hs fun g h => by rw [hg], hh]
  exact hb.bill

theorem Balanced.samePages (hb : Balanced rest base m S G R) (h : SamePages m m') :
    Balanced rest base m' S G R :=
  hb.congr (fun s _ => h.spaces s) h.groups h.heap

/-- The bill with another heap. -/
theorem Balanced.setHeap {R' : Multiset ℕ} {h : H} (hb : Balanced rest base m S G R)
    (hbill : Bill rest base h (holds m S G + R')) : Balanced rest base (m.setHeap h) S G R' :=
  ⟨hbill, hb.counted.congr (fun _ _ => rfl) fun _ => rfl⟩

/-! ## A new space -/

/-- **`space_create`**: the space that is made holds the seven pages taken for it. -/
theorem Balanced.create (hb : Balanced rest base m S G R) (h7 : HasPages m.heap 7)
    (he : m.spaceCreate = (c, m')) : c ∉ S ∧ Balanced rest base m' (insert c S) G R := by
  obtain ⟨hc, hheap, hgroups, -, hspaces, -, hcow, hpages⟩ := Mmu.spaceCreate_keeps h7 he
  have hnot : c ∉ S := fun h => (h7.ne_of_live (hb.live_space h)).2 0 (by decide) hc.symm
  have hne : ∀ x ∈ S, x ≠ c := fun x hx hxc => hnot (hxc ▸ hx)
  refine ⟨hnot, ?_, hb.counted.create (fun x hx => hspaces x (hne x hx)) hgroups hcow⟩
  have hself : spaceHolds m' c = ((List.range 7).map (pageAt m.heap) : Multiset ℕ) := by
    have hperm : [5, 6, 1, 2, 3, 4, 0].Perm (List.range 7) := by decide
    have hown : Own m' c := Or.inl hcow
    rw [spaceHolds, if_pos hown, add_comm, Multiset.coe_add, hpages]
    exact Multiset.coe_eq_coe.mpr (hperm.map _)
  have hold : ∑ x ∈ S, spaceHolds m' x = ∑ x ∈ S, spaceHolds m x :=
    Finset.sum_congr rfl fun x hx => spaceHolds_congr
      (by rw [hspaces x (hne x hx)]; exact .refl _) fun _ => by rw [hgroups]
  have hgroup : ∑ g ∈ G, groupHolds m' g = ∑ g ∈ G, groupHolds m g :=
    Finset.sum_congr rfl fun g _ => groupHolds_congr fun h => by rw [hgroups]
  rw [holds, Finset.sum_insert hnot, hself, hold, hgroup, add_assoc, add_assoc, ← add_assoc _ _ R,
    ← holds, hheap]
  exact hb.bill.takePages h7

/-! ## Sharing -/

/-- A parent that has strayed leaves its group. -/
theorem Balanced.leaveGroup (hb : Balanced rest base m S G R) (hp : p ∈ S) :
    Balanced rest base (m.leaveGroup p) S (if m.Strayed p then survivors m p G else G) R := by
  refine ⟨?_, hb.counted.leaveGroup hp⟩
  have hspaces : ∑ x ∈ S, spaceHolds (m.leaveGroup p) x = ∑ x ∈ S, spaceHolds m x :=
    Finset.sum_congr rfl fun x _ => spaceHolds_leaveGroup m p x
  have hbill := hb.bill
  rw [holds] at hbill ⊢
  rw [hspaces, Finset.sum_congr rfl fun g _ => groupHolds_leaveGroup m p g, Mmu.leaveGroup_heap,
    Mmu.leaveHeap]
  by_cases hst : m.Strayed p
  · rw [if_pos hst, if_pos hst]
    rw [← sum_survivors hb.counted hp hst.1, add_left_comm, add_assoc] at hbill
    exact hbill.freeAll
  · rw [if_neg hst, if_neg hst]
    exact hbill

/-- A parent without a group takes a page for one, which holds its tables from then on. -/
theorem Balanced.enterGroup (hb : Balanced rest base m S G R) (hp : p ∈ S)
    (he : m.enterGroup p = (g, m')) (hg : g ≠ 0) :
    Balanced rest base m' S (insert g G) R ∧ (∀ x, x ≠ p → m'.spaces x = m.spaces x) := by
  by_cases h0 : (m.spaces p).cow = 0
  swap
  · rw [Mmu.enterGroup_of_cow h0] at he
    obtain ⟨rfl, rfl⟩ := Prod.mk.inj he
    have hmem := (hb.counted.mem _).mpr ⟨h0, p, Finset.mem_filter.mpr ⟨hp, rfl⟩⟩
    rw [Finset.insert_eq_of_mem hmem]
    exact ⟨hb, fun _ _ => rfl⟩
  have hk : m.kframeAlloc = ((allocN m.heap 1).1, m.setHeap (allocN m.heap 1).2) := rfl
  have hcount := hb.counted.enterGroup hp (by rw [he]; exact hg) fun h =>
    (hb.members_fresh h (allocN_fresh m.heap 1 (by decide) h)).2
  rw [he] at hcount
  rw [Mmu.enterGroup, if_neg (not_not.mpr h0), hk] at he
  dsimp only at he
  by_cases hpage : (allocN m.heap 1).1 = 0
  · rw [if_pos hpage] at he
    exact absurd (Prod.mk.inj he).1.symm hg
  rw [if_neg hpage] at he
  obtain ⟨rfl, rfl⟩ := Prod.mk.inj he
  have hnot : (allocN m.heap 1).1 ∉ G :=
    (hb.members_fresh hpage (allocN_fresh m.heap 1 (by decide) hpage)).1
  set g := (allocN m.heap 1).1
  set m₁ := ((m.setHeap (allocN m.heap 1).2).setGroup g
    ⟨((m.setHeap (allocN m.heap 1).2).spaces p).ptCode,
      ((m.setHeap (allocN m.heap 1).2).spaces p).ptHeap, 1⟩).setCow p g with hm₁
  have hspaces : ∀ x, x ≠ p → m₁.spaces x = m.spaces x := fun x hx => Function.update_of_ne hx _ _
  have hself : m₁.spaces p = { m.spaces p with cow := g } := Function.update_self _ _ _
  have hnew : m₁.groups g = ⟨(m.spaces p).ptCode, (m.spaces p).ptHeap, 1⟩ :=
    Function.update_self _ _ _
  have hgroups : ∀ g', g' ≠ g → m₁.groups g' = m.groups g' := fun g' h =>
    Function.update_of_ne h _ _
  refine ⟨⟨?_, hcount⟩, hspaces⟩
  -- the tables of the parent go to the group
  have hown : Own m p := Or.inl h0
  have hown' : ¬Own m₁ p := by
    rw [Own, hself, hnew]
    exact not_or.mpr ⟨hg, not_not.mpr rfl⟩
  have hsum : ∑ x ∈ S, spaceHolds m₁ x + (ownPages m p : Multiset ℕ) = ∑ x ∈ S, spaceHolds m x := by
    have hrest : ∑ x ∈ S.erase p, spaceHolds m₁ x = ∑ x ∈ S.erase p, spaceHolds m x := by
      refine Finset.sum_congr rfl fun x hx => ?_
      obtain ⟨hxp, hxS⟩ := Finset.mem_erase.mp hx
      refine spaceHolds_congr (by rw [hspaces x hxp]; exact .refl _) fun hc => ?_
      rw [hgroups]
      intro hcg
      exact hnot (hcg ▸ (hb.counted.mem _).mpr ⟨hc, x, Finset.mem_filter.mpr ⟨hxS, rfl⟩⟩)
    have hp' : spaceHolds m₁ p + (ownPages m p : Multiset ℕ) = spaceHolds m p := by
      rw [spaceHolds, if_neg hown', spaceHolds, if_pos hown, spacePages, spacePages, hself,
        add_zero]
    rw [← Finset.add_sum_erase S _ hp, ← Finset.add_sum_erase S (spaceHolds m) hp, hrest,
      add_right_comm, hp']
  have hgsum : ∑ g' ∈ G, groupHolds m₁ g' = ∑ g' ∈ G, groupHolds m g' := by
    refine Finset.sum_congr rfl fun g' hg' => groupHolds_congr fun h => ?_
    rw [hgroups g' fun h => hnot (h ▸ hg')]
  have hghold : groupHolds m₁ g = (ownPages m p : Multiset ℕ) + {g} := by
    rw [groupHolds, Pool.groupAll, hnew, ownPages]
    rfl
  have hbill := hb.bill.alloc (n := 1) (by decide) hpage
  have hholds : holds m₁ S (insert g G) + R = g ::ₘ (holds m S G + R) := by
    rw [holds, Finset.sum_insert hnot, hgsum, hghold, holds, ← hsum, ← Multiset.singleton_add]
    abel
  rw [hholds]
  exact hbill

/-- A child that was in no group gives its tables back and joins one. -/
theorem Balanced.attach (hb : Balanced rest base m S G R) (hc : c ∈ S)
    (h0 : (m.spaces c).cow = 0) (hg : g ∈ G) : Balanced rest base (m.attach c g) S G R := by
  refine ⟨?_, hb.counted.attach hc h0 hg⟩
  have hg0 := ((hb.counted.mem g).mp hg).1
  have hspaces : ∀ x, x ≠ c → (m.attach c g).spaces x = m.spaces x := fun x hx =>
    Mmu.attach_spaces_of_ne hx
  have hself : (m.attach c g).spaces c = { m.spaces c with
      ptCode := (m.groups g).ptCode, ptHeap := (m.groups g).ptHeap
      linkCode := (m.groups g).ptCode, linkHeap := (m.groups g).ptHeap, cow := g } := by
    simp only [Mmu.attach, Mmu.linkTables, Mmu.setGroup_spaces, Mmu.setSpace_spaces,
      Function.update_self]
    rfl
  have hpt : ∀ g' h, ((m.attach c g).groups g').pt h = (m.groups g').pt h := by
    intro g' h
    change (Function.update m.groups g _ g').pt h = _
    by_cases hgg : g' = g
    · rw [hgg, Function.update_self]
      cases h <;> rfl
    · rw [Function.update_of_ne hgg]
  have hown : Own m c := Or.inl h0
  have hown' : ¬Own (m.attach c g) c := by
    rw [Own, hself]
    exact not_or.mpr ⟨hg0, not_not.mpr (hpt g .code).symm⟩
  have hsum : (ownPages m c : Multiset ℕ) + ∑ x ∈ S, spaceHolds (m.attach c g) x
      = ∑ x ∈ S, spaceHolds m x := by
    have hrest : ∑ x ∈ S.erase c, spaceHolds (m.attach c g) x = ∑ x ∈ S.erase c,
        spaceHolds m x := by
      refine Finset.sum_congr rfl fun x hx => spaceHolds_congr ?_ fun _ => hpt _ .code
      rw [hspaces x (Finset.ne_of_mem_erase hx)]
      exact .refl _
    have hc' : (ownPages m c : Multiset ℕ) + spaceHolds (m.attach c g) c = spaceHolds m c := by
      rw [spaceHolds, if_neg hown', spaceHolds, if_pos hown, spacePages, spacePages, hself,
        add_zero, add_comm]
    rw [← Finset.add_sum_erase S _ hc, ← Finset.add_sum_erase S (spaceHolds m) hc, hrest,
      ← add_assoc, hc']
  have hgsum : ∑ g' ∈ G, groupHolds (m.attach c g) g' = ∑ g' ∈ G, groupHolds m g' :=
    Finset.sum_congr rfl fun g' _ => groupHolds_congr fun h => hpt g' h
  have hbill := hb.bill
  rw [holds, ← hsum, add_assoc, add_assoc, ← hgsum, ← add_assoc _ _ R, ← holds] at hbill
  exact hbill.freeAll

/-- **`space_share_user`**: all that the parent and the child had is held by them or by their group
afterwards, or was given back. -/
theorem Balanced.share (hb : Balanced rest base m S G R) (hc : c ∈ S) (hp : p ∈ S) (hne : c ≠ p)
    (h0 : (m.spaces c).cow = 0) (hs : m.spaceShareUser c p = (true, m')) :
    ∃ G', Balanced rest base m' S G' R := by
  have h := hb.leaveGroup hp
  rcases he : (m.leaveGroup p).enterGroup p with ⟨g, m₁⟩
  rw [Mmu.spaceShareUser] at hs
  split at hs
  · cases hs
  rw [he] at hs
  dsimp only at hs
  split at hs
  · cases hs
  next hg =>
  obtain rfl := (Prod.mk.inj hs).2
  obtain ⟨h1, hspaces⟩ := h.enterGroup hp he hg
  have h2 : Balanced rest base ((m₁.protect g).linkTables p) S
      (insert g (if m.Strayed p then survivors m p G else G)) R := by
    refine h1.congr (fun x _ => ?_) rfl rfl
    by_cases hx : x = p
    · subst hx
      rw [Mmu.linkTables, Mmu.setSpace_spaces, Function.update_self]
      exact ⟨rfl, fun h => by cases h <;> rfl, rfl⟩
    · rw [Mmu.linkTables, Mmu.setSpace_spaces, Function.update_of_ne hx]
      exact .refl _
  refine ⟨_, h2.attach hc ?_ (Finset.mem_insert_self g _)⟩
  rw [Mmu.linkTables, Mmu.setSpace_spaces, Function.update_of_ne hne]
  exact (congrArg Space.cow ((hspaces c hne).trans (Mmu.leaveGroup_spaces hne))).trans h0

/-! ## A fault -/

/-- The tables of a space that leaves those of its group are on the bill, or given back when one of
them is missing. -/
theorem Balanced.unshare (hb : Balanced rest base m S G R) (hs : s ∈ S)
    (hc : (m.spaces s).cow ≠ 0) : Balanced rest base (m.unshare s).2 S G R ∧
      ((m.unshare s).1 = true ↔ HasPages m.heap (if Own m s then 0 else 2)) := by
  rw [Mmu.unshare]
  dsimp only
  rw [if_neg hc]
  by_cases ho : (m.spaces s).ptCode ≠ (m.groups (m.spaces s).cow).ptCode
  · have hown : Own m s := Or.inr ho
    rw [if_pos ho, if_pos hown]
    exact ⟨hb, iff_of_true rfl trivial⟩
  have hown : ¬Own m s := not_or.mpr ⟨hc, ho⟩
  rw [if_neg ho, if_neg hown]
  have hk : ∀ m : Mmu H, m.kframeAlloc = ((allocN m.heap 1).1, m.setHeap (allocN m.heap 1).2) :=
    fun _ => rfl
  simp only [hk, Mmu.setHeap_heap]
  set code := (allocN m.heap 1).1 with hcode
  set heap := (allocN (allocN m.heap 1).2 1).1 with hheap
  by_cases hz : code = 0 ∨ heap = 0
  · rw [if_pos hz]
    constructor
    · refine hb.setHeap (h := free (free (allocN (allocN m.heap 1).2 1).2 code) heap) ?_
      have h2 := (hb.bill.allocOr (n := 1) (by decide)).allocOr (n := 1) (by decide)
      rw [← add_assoc, Multiset.coe_add, ← List.filter_append] at h2
      have hperm : ([heap] ++ [code]).Perm [code, heap] := List.Perm.swap _ _ _
      rw [Multiset.coe_eq_coe.mpr (hperm.filter _)] at h2
      exact h2.freeNonzero
    · refine iff_of_false Bool.false_ne_true fun h => ?_
      rcases hz with h0 | h0
      · exact h.1 h0
      · exact h.2.1 h0
  obtain ⟨hc0, hh0⟩ := not_or.mp hz
  rw [if_neg hz]
  refine ⟨?_, iff_of_true rfl ⟨hc0, hh0, trivial⟩⟩
  set m₁ := ((m.setHeap (allocN m.heap 1).2).setHeap (allocN (allocN m.heap 1).2 1).2) with hm₁
  set m₂ := (((m₁.setTable code _).setTable heap _).setSpace s _).linkTables s with hm₂
  have hspaces : ∀ x, x ≠ s → m₂.spaces x = m.spaces x := by
    intro x hx
    rw [hm₂, Mmu.linkTables, Mmu.setSpace_spaces, Function.update_of_ne hx, Mmu.setSpace_spaces,
      Function.update_of_ne hx]
    rfl
  have hself : m₂.spaces s = { m.spaces s with
      ptCode := code, ptHeap := heap, linkCode := code, linkHeap := heap } := by
    rw [hm₂, Mmu.linkTables, Mmu.setSpace_spaces, Function.update_self, Mmu.setSpace_spaces,
      Function.update_self]
    rfl
  have hmem : (m.spaces s).cow ∈ G :=
    (hb.counted.mem _).mpr ⟨hc, s, Finset.mem_filter.mpr ⟨hs, rfl⟩⟩
  -- a page that was not out is no table of the group
  have hown' : Own m₂ s := by
    refine Or.inr ?_
    rw [hself]
    intro he
    have hin : (m.groups (m.spaces s).cow).ptCode ∈ holds m S G + R := by
      rw [holds, Multiset.mem_add, Multiset.mem_add]
      refine Or.inl (Or.inr (Multiset.mem_sum.mpr ⟨_, hmem, ?_⟩))
      simp [groupHolds, Pool.groupAll]
    have hl := hb.bill.live hin
    rw [show (m.groups (m.spaces s).cow).ptCode = code from he.symm,
      allocN_fresh m.heap 1 (by decide) hc0] at hl
    cases hl
  have hsum : ∑ x ∈ S, spaceHolds m₂ x
      = ([heap, code] : Multiset ℕ) + ∑ x ∈ S, spaceHolds m x := by
    have hrest : ∑ x ∈ S.erase s, spaceHolds m₂ x = ∑ x ∈ S.erase s, spaceHolds m x := by
      refine Finset.sum_congr rfl fun x hx => spaceHolds_congr ?_ fun _ => rfl
      rw [hspaces x (Finset.ne_of_mem_erase hx)]
      exact .refl _
    have hs' : spaceHolds m₂ s = ([heap, code] : Multiset ℕ) + spaceHolds m s := by
      have hperm : [code, heap].Perm [heap, code] := List.Perm.swap _ _ _
      rw [spaceHolds, if_pos hown', spaceHolds, if_neg hown, spacePages, spacePages, ownPages,
        hself, add_zero, add_comm]
      exact congrArg (· + _) (Multiset.coe_eq_coe.mpr hperm)
    rw [← Finset.add_sum_erase S _ hs, ← Finset.add_sum_erase S (spaceHolds m) hs, hrest, hs',
      add_assoc]
  refine ⟨?_, hb.counted.congr (fun x _ => ?_) fun _ => rfl⟩
  · have hgsum : ∑ g ∈ G, groupHolds m₂ g = ∑ g ∈ G, groupHolds m g :=
      Finset.sum_congr rfl fun g _ => groupHolds_congr fun _ => rfl
    have hbill := (hb.bill.alloc (n := 1) (by decide) hc0).alloc (n := 1) (by decide) hh0
    rw [holds, hsum, hgsum, add_assoc, add_assoc, ← add_assoc _ _ R, ← holds, ← Multiset.cons_coe,
      ← Multiset.cons_coe, Multiset.cons_add, Multiset.cons_add, Multiset.coe_nil, zero_add]
    exact hbill
  · by_cases hx : x = s
    · rw [hx, hself]
    · rw [hspaces x hx]

/-- A store to the page makes a copy: the page is there for the user and read only, the space is in
a group, and there is a page for the copy and two for tables if the space has none of its own. -/
def Copies (m : Mmu H) (s va : ℕ) : Prop :=
  s ≠ 0 ∧ (m.spaces s).cow ≠ 0 ∧
    (∃ h, Mmu.userTable (Mmu.pageOf va) = some h ∧
      (entry m s h (Mmu.pteIndex (Mmu.pageOf va))).present = true ∧
      (entry m s h (Mmu.pteIndex (Mmu.pageOf va))).user = true ∧
      (entry m s h (Mmu.pteIndex (Mmu.pageOf va))).rw = false) ∧
    HasPages m.heap (if Own m s then 1 else 3)

/-- **`space_cow_fault`** makes a copy when `Copies` says so. The copy is then on nobody's bill; all
else that was taken is held by the space, or was given back. -/
theorem Balanced.fault (hb : Balanced rest base m S G R) (hs : s ∈ S) (va : ℕ) :
    ((m.spaceCowFault s va).1 = true ↔ Copies m s va) ∧
      (Copies m s va → Balanced rest base (m.spaceCowFault s va).2 S G (pageAt m.heap 0 ::ₘ R)) ∧
      (¬Copies m s va → Balanced rest base (m.spaceCowFault s va).2 S G R) := by
  have none : ∀ {m' : Mmu H}, ¬Copies m s va → Balanced rest base m' S G R →
      (((false, m').1 = true ↔ Copies m s va) ∧
        (Copies m s va → Balanced rest base (false, m').2 S G (pageAt m.heap 0 ::ₘ R)) ∧
        (¬Copies m s va → Balanced rest base (false, m').2 S G R)) := fun hn hb' =>
    ⟨iff_of_false Bool.false_ne_true hn, fun h => absurd h hn, fun _ => hb'⟩
  rw [Mmu.spaceCowFault]
  by_cases hg : s = 0 ∨ (m.spaces s).cow = 0
  · rw [if_pos hg]
    exact none (fun h => hg.elim h.1 h.2.1) hb
  obtain ⟨h0, hc⟩ := not_or.mp hg
  rw [if_neg hg]
  dsimp only
  cases hva : Mmu.userTable (Mmu.pageOf va) with
  | none =>
    refine none (fun h => ?_) hb
    obtain ⟨-, -, ⟨h, hh, -⟩, -⟩ := h
    rw [hva] at hh
    cases hh
  | some half =>
    dsimp only
    have hcopies : Copies m s va ↔ ((entry m s half (Mmu.pteIndex (Mmu.pageOf va))).present = true ∧
        (entry m s half (Mmu.pteIndex (Mmu.pageOf va))).user = true ∧
        (entry m s half (Mmu.pteIndex (Mmu.pageOf va))).rw = false) ∧
        (allocN m.heap 1).1 ≠ 0 ∧ HasPages (allocN m.heap 1).2 (if Own m s then 0 else 2) := by
      have hpages : HasPages m.heap (if Own m s then 1 else 3) ↔
          (allocN m.heap 1).1 ≠ 0 ∧ HasPages (allocN m.heap 1).2 (if Own m s then 0 else 2) := by
        split <;> exact Iff.rfl
      rw [Copies, hpages, and_iff_right h0, and_iff_right hc]
      refine and_congr_left fun _ => ⟨?_, fun h => ⟨half, hva, h⟩⟩
      rintro ⟨h, hh, he⟩
      obtain rfl : half = h := Option.some.inj (hva.symm.trans hh)
      exact he
    set ent := entry m s half (Mmu.pteIndex (Mmu.pageOf va)) with hent
    rw [show m.tables ((m.spaces s).pt half) (Mmu.pteIndex (Mmu.pageOf va)) = ent from rfl]
    by_cases hentry : (!ent.present || !ent.user || ent.rw) = true
    · rw [if_pos hentry]
      refine none (fun h => ?_) hb
      obtain ⟨⟨h1, h2, h3⟩, -⟩ := hcopies.mp h
      rw [h1, h2, h3] at hentry
      cases hentry
    rw [if_neg hentry]
    have hkind : ent.present = true ∧ ent.user = true ∧ ent.rw = false := by
      cases hp : ent.present <;> cases hu : ent.user <;> cases hw : ent.rw <;>
        simp [hp, hu, hw] at hentry ⊢
    rw [and_iff_right hkind] at hcopies
    have hk : m.kframeAlloc = ((allocN m.heap 1).1, m.setHeap (allocN m.heap 1).2) := rfl
    simp only [hk]
    by_cases hnf : (allocN m.heap 1).1 = 0
    · rw [if_pos hnf]
      exact none (fun h => (hcopies.mp h).1 hnf) (hb.setHeap (hb.bill.fail (by decide) hnf))
    rw [if_neg hnf]
    rw [and_iff_right hnf] at hcopies
    set m₁ := (m.setHeap (allocN m.heap 1).2).setMem _
    have h1 : Balanced rest base m₁ S G ((allocN m.heap 1).1 ::ₘ R) := by
      have hbill := hb.bill.alloc (n := 1) (by decide) hnf
      rw [← Multiset.add_cons] at hbill
      exact (hb.setHeap hbill).congr (fun _ _ => .refl _) rfl rfl
    obtain ⟨h2, hok⟩ := h1.unshare hs hc
    have hok' : (m₁.unshare s).1 = true ↔ Copies m s va := hok.trans hcopies.symm
    rcases hu : m₁.unshare s with ⟨ok, m₂⟩
    rw [hu] at h2 hok'
    cases ok with
    | false =>
      refine none (fun h => Bool.false_ne_true (hok'.mpr h)) (h2.setHeap ?_)
      have hbill := h2.bill
      rw [Multiset.add_cons] at hbill
      exact hbill.free
    | true =>
      have hyes := hok'.mp rfl
      obtain ⟨tables, ht⟩ := mapPage_eq m₂ s (Mmu.pageOf va) (allocN m.heap 1).1 true
      dsimp only
      rw [ht]
      exact ⟨iff_of_true rfl hyes, fun _ => h2.congr (fun _ _ => .refl _) rfl rfl,
        fun h => absurd hyes h⟩

/-! ## The end of a space -/

/-- **`space_destroy`** gives back all that the space held, and what its group held when it was the
last one there. -/
theorem Balanced.destroy (hb : Balanced rest base m S G R) (hs : s ∈ S) (hboot : s ≠ m.boot) :
    Balanced rest base (m.spaceDestroy s) (S.erase s) (survivors m s G) R := by
  have h0 := hb.ne_zero hs
  refine ⟨?_, hb.counted.spaceDestroy hs h0 hboot⟩
  obtain ⟨m', hm', hheap, hspaces, -, -, hgroups, -⟩ := spaceDestroy_eq m h0 hboot
  rw [hm']
  have hpt : ∀ g h, (m'.groups g).pt h = (m.groups g).pt h := by
    intro g h
    rw [hgroups]
    split
    · rfl
    · exact pt_dropGroup m _ g h
  have hsum : ∑ x ∈ S.erase s, spaceHolds m' x = ∑ x ∈ S.erase s, spaceHolds m x := by
    refine Finset.sum_congr rfl fun x hx => spaceHolds_congr ?_ fun _ => hpt _ .code
    rw [hspaces x (Finset.ne_of_mem_erase hx)]
    exact .refl _
  have hgsum : ∑ g ∈ survivors m s G, groupHolds m' g = ∑ g ∈ survivors m s G, groupHolds m g :=
    Finset.sum_congr rfl fun g _ => groupHolds_congr fun h => hpt g h
  -- what goes, in the order in which it goes
  have hgone : (((if Own m s then ownPages m s else []) ++
      ((if (m.spaces s).cow = 0 then [] else groupPages m (m.spaces s).cow) ++ spacePages m s) :
        List ℕ) : Multiset ℕ) + holds m' (S.erase s) (survivors m s G) = holds m S G := by
    have hgroup : ((if (m.spaces s).cow = 0 then [] else groupPages m (m.spaces s).cow : List ℕ)
        : Multiset ℕ) + ∑ g ∈ survivors m s G, groupHolds m g = ∑ g ∈ G, groupHolds m g := by
      by_cases hc : (m.spaces s).cow = 0
      · rw [if_pos hc, survivors, if_neg fun h => h.1 hc]
        exact zero_add _
      · rw [if_neg hc]
        exact sum_survivors hb.counted hs hc
    have hself : (if Own m s then (ownPages m s : Multiset ℕ) else 0)
        = ((if Own m s then ownPages m s else [] : List ℕ) : Multiset ℕ) := by
      split <;> rfl
    rw [holds, hsum, hgsum, holds, ← Finset.add_sum_erase S (spaceHolds m) hs, ← hgroup, spaceHolds,
      hself, ← Multiset.coe_add, ← Multiset.coe_add]
    abel
  have hbill := hb.bill
  rw [← hgone, add_assoc] at hbill
  rw [hheap]
  exact hbill.freeAll

end Paging

end Aurisys
