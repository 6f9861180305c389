import Aurisys.Kernel.Spaces

/-!
# The reference counts of the groups

A group is counted by the spaces that name it, whether they still use its tables or not. The count
goes up when a child joins, down when a space goes or when a parent finds that it has strayed, and
at zero the group and its tables are given back.

The heap keeps a record of what is given back, so that the statement can be about every call of
`kfree`: each of them is of a page that is out.

## Main definitions

* `Counted` — the groups are those that are named, each with the right count
* `Pool`, `Op` — spaces, the groups made for them, and what can be done with them
* `Pool.Good` — the invariant

## Main results

* `Pool.Good.step`, `group_counts`
-/

namespace Aurisys

open Pages PageAlloc

namespace Paging

variable {H : Type} [PageAlloc H] {D : Type} {sz : D → ℕ} {m m' : Mmu H}
  {ty ty' : ℕ → Option (Kind D)} {S G : Finset ℕ} {s g p c : ℕ}

/-! ## The counts -/

/-- The groups `G` are those that the spaces `S` name, and each has the right count. -/
structure Counted (m : Mmu H) (S G : Finset ℕ) : Prop where
  /-- A group is one that is named. -/
  mem : ∀ g, g ∈ G ↔ g ≠ 0 ∧ (members m S g).Nonempty
  /-- It counts those that name it. -/
  refs : ∀ g ∈ G, (m.groups g).refs = (members m S g).card

/-- The groups that are left when `s` has left its group. -/
def survivors (m : Mmu H) (s : ℕ) (G : Finset ℕ) : Finset ℕ :=
  if (m.spaces s).cow ≠ 0 ∧ (m.groups (m.spaces s).cow).refs - 1 = 0 then G.erase (m.spaces s).cow
  else G

omit [PageAlloc H] in
theorem Counted.congr (hc : Counted m S G) (hcow : ∀ x ∈ S, (m'.spaces x).cow = (m.spaces x).cow)
    (hrefs : ∀ g, (m'.groups g).refs = (m.groups g).refs) : Counted m' S G := by
  have hm : ∀ g, members m' S g = members m S g := fun g =>
    Finset.filter_congr fun x hx => by rw [hcow x hx]
  refine ⟨fun g => ?_, fun g hg => ?_⟩
  · rw [hm]
    exact hc.mem g
  · rw [hm, hrefs]
    exact hc.refs g hg

omit [PageAlloc H] in
/-- One space stops naming its group. -/
theorem Counted.drop {S' : Finset ℕ} (hc : Counted m S G) (hs : s ∈ S)
    (hmem : ∀ g, g ≠ 0 → members m' S' g = members m (S.erase s) g)
    (hrefs : ∀ g, g ≠ 0 → (m'.groups g).refs
      = (m.groups g).refs - if (m.spaces s).cow = g then 1 else 0) :
    Counted m' S' (survivors m s G) := by
  have hcard : ∀ g, g ≠ 0 → (members m' S' g).card + (if (m.spaces s).cow = g then 1 else 0)
      = (members m S g).card := fun g h0 => by
    rw [hmem g h0]
    exact members_erase hs g
  have hself : (m.spaces s).cow ≠ 0 → (m.spaces s).cow ∈ G := fun h0 =>
    (hc.mem _).mpr ⟨h0, s, Finset.mem_filter.mpr ⟨hs, rfl⟩⟩
  have hmem' : ∀ g, g ∈ survivors m s G ↔ g ≠ 0 ∧ (members m' S' g).Nonempty := by
    intro g
    rw [survivors, ← Finset.card_pos]
    by_cases h0 : g = 0
    · subst h0
      have : 0 ∉ G := fun h => ((hc.mem 0).mp h).1 rfl
      split
      · simp [this]
      · simp [this]
    · have h1 := hcard g h0
      have h2 := hc.mem g
      rw [← Finset.card_pos] at h2
      by_cases he : (m.spaces s).cow = g
      · subst he
        have h3 := hc.refs _ (hself h0)
        rw [if_pos rfl] at h1
        split
        · next h =>
          rw [Finset.mem_erase]
          refine iff_of_false (fun h => h.1 rfl) fun h' => ?_
          have := h.2
          have := h'.2
          omega
        · next h =>
          refine iff_of_true (hself h0) ⟨h0, ?_⟩
          have : ¬(m.groups (m.spaces s).cow).refs - 1 = 0 := fun h' => h ⟨h0, h'⟩
          omega
      · rw [if_neg he] at h1
        rw [show (members m' S' g).card = (members m S g).card from h1]
        split
        · rw [Finset.mem_erase, h2]
          exact and_iff_right (Ne.symm he)
        · exact h2
  refine ⟨hmem', fun g hg => ?_⟩
  have h0 := ((hmem' g).mp hg).1
  have hG : g ∈ G := by
    rw [survivors] at hg
    split at hg
    · exact Finset.mem_of_mem_erase hg
    · exact hg
  have h1 := hcard g h0
  have h2 := hc.refs g hG
  rw [hrefs g h0, h2]
  omega

theorem refs_dropGroup_eq (m : Mmu H) (g g' : ℕ) :
    ((m.dropGroup g).groups g').refs = (m.groups g').refs - if g = g' then 1 else 0 := by
  rw [groups_dropGroup]
  by_cases hg : g = g'
  · subst hg
    rw [Function.update_self, if_pos rfl]
  · rw [Function.update_of_ne (Ne.symm hg), if_neg hg]
    rfl

theorem Counted.spaceDestroy (hc : Counted m S G) (hs : s ∈ S) (h0 : s ≠ 0) (hb : s ≠ m.boot) :
    Counted (m.spaceDestroy s) (S.erase s) (survivors m s G) := by
  obtain ⟨m', hm', -, hspaces, -, -, hgroups, -⟩ := spaceDestroy_eq m h0 hb
  rw [hm']
  refine hc.drop hs (fun g _ => members_congr (fun x hx => ?_) g) fun g hg => ?_
  · exact hspaces x (Finset.ne_of_mem_erase hx)
  · rw [hgroups]
    split
    · next h => rw [h, if_neg (Ne.symm hg)]; rfl
    · exact refs_dropGroup_eq m _ g

omit [PageAlloc H] in
/-- One space names another group than before. -/
theorem members_of_cow {a : ℕ} (hs : s ∈ S)
    (h : ∀ x, (m'.spaces x).cow = if x = s then a else (m.spaces x).cow) (g : ℕ) :
    members m' S g = if a = g then insert s (members m S g) else (members m S g).erase s := by
  ext x
  have hx' : x ∈ members m' S g ↔ x ∈ S ∧ (if x = s then a else (m.spaces x).cow) = g := by
    rw [members, Finset.mem_filter, h x]
  rw [hx']
  by_cases hx : x = s
  · subst hx
    rw [if_pos rfl]
    split
    · next ha => simp [ha, hs]
    · next ha => simp [ha]
  · rw [if_neg hx]
    split
    · simp [hx, members]
    · simp [hx, members]

theorem Counted.leaveGroup (hc : Counted m S G) (hs : s ∈ S) :
    Counted (m.leaveGroup s) S (if m.Strayed s then survivors m s G else G) := by
  by_cases h : m.Strayed s
  · rw [Mmu.leaveGroup_of_strayed h, if_pos h]
    refine hc.drop hs (fun g hg => ?_) fun g _ => refs_dropGroup_eq m _ g
    have hcow : ∀ x, (((m.dropGroup (m.spaces s).cow).setCow s 0).spaces x).cow
        = if x = s then 0 else (m.spaces x).cow := by
      intro x
      rw [dropGroup_eq, Mmu.setCow, Mmu.setSpace_spaces, Function.update_apply]
      split <;> rfl
    rw [members_of_cow hs hcow, if_neg (Ne.symm hg), members, members, Finset.filter_erase]
  · rwa [Mmu.leaveGroup_of_not_strayed h, if_neg h]

/-- Nobody names a page that was not out. -/
theorem Wf.members_fresh (hw : Wf sz m ty S) (h0 : (allocN m.heap 1).1 ≠ 0) :
    members m S (allocN m.heap 1).1 = ∅ :=
  hw.members_eq_empty (hw.typed.fresh (by decide) h0 rfl) h0

omit [PageAlloc H] in
/-- A space that is made is in no group. -/
theorem Counted.create (hc : Counted m S G) (hspaces : ∀ x ∈ S, m'.spaces x = m.spaces x)
    (hgroups : m'.groups = m.groups) (h0 : (m'.spaces c).cow = 0) : Counted m' (insert c S) G := by
  have hmem : ∀ g, g ≠ 0 → members m' (insert c S) g = members m S g := by
    intro g hg
    rw [members, Finset.filter_insert, if_neg fun h => hg (h.symm.trans h0)]
    exact members_congr hspaces g
  refine ⟨fun g => ?_, fun g hg => ?_⟩
  · rw [hc.mem]
    exact and_congr_right fun h => by rw [hmem g h]
  · rw [hgroups, hmem g ((hc.mem g).mp hg).1]
    exact hc.refs g hg

/-- A group that is made starts with the parent as its one member. -/
theorem Counted.enterGroup (hc : Counted m S G) (hs : s ∈ S) (hne : (m.enterGroup s).1 ≠ 0)
    (hnew : (allocN m.heap 1).1 ≠ 0 → members m S (allocN m.heap 1).1 = ∅) :
    Counted (m.enterGroup s).2 S (insert (m.enterGroup s).1 G) := by
  by_cases h0 : (m.spaces s).cow = 0
  swap
  · have he : m.enterGroup s = ((m.spaces s).cow, m) := if_pos h0
    have hin : (m.spaces s).cow ∈ G :=
      (hc.mem _).mpr ⟨h0, s, Finset.mem_filter.mpr ⟨hs, rfl⟩⟩
    rwa [he, Finset.insert_eq_of_mem hin]
  rcases hk : m.kframeAlloc with ⟨g, m1⟩
  obtain ⟨rfl, rfl⟩ : (allocN m.heap 1).1 = g ∧ m.setHeap (allocN m.heap 1).2 = m1 :=
    Prod.mk.inj hk
  set m1 := m.setHeap (allocN m.heap 1).2 with hk1
  set g := (allocN m.heap 1).1
  have hgroup : m.enterGroup s = if g = 0 then (0, m1) else
      (g, (m1.setGroup g ⟨(m1.spaces s).ptCode, (m1.spaces s).ptHeap, 1⟩).setCow s g) := by
    rw [Mmu.enterGroup, if_neg (not_not.mpr h0), hk]
  by_cases hg : g = 0
  · rw [hgroup, if_pos hg] at hne
    exact absurd rfl hne
  have hempty := hnew hg
  rw [hgroup, if_neg hg]
  set m2 := (m1.setGroup g ⟨(m1.spaces s).ptCode, (m1.spaces s).ptHeap, 1⟩).setCow s g with hm2
  have hcow : ∀ x, (m2.spaces x).cow = if x = s then g else (m.spaces x).cow := by
    intro x
    rw [hm2, hk1, Mmu.setCow, Mmu.setSpace_spaces, Function.update_apply]
    split <;> rfl
  have hgroups : m2.groups
      = Function.update m.groups g ⟨(m1.spaces s).ptCode, (m1.spaces s).ptHeap, 1⟩ := by
    rw [hm2, hk1]
    rfl
  have hself : members m2 S g = {s} := by
    rw [members_of_cow hs hcow, if_pos rfl, hempty]
    rfl
  have hother : ∀ g', g' ≠ 0 → g' ≠ g → members m2 S g' = members m S g' := by
    intro g' hg' he
    rw [members_of_cow hs hcow, if_neg (Ne.symm he), Finset.erase_eq_of_notMem]
    exact fun h => hg' ((Finset.mem_filter.mp h).2.symm.trans h0)
  refine ⟨fun g' => ?_, fun g' hg' => ?_⟩
  · by_cases he : g' = g
    · subst he
      exact iff_of_true (Finset.mem_insert_self _ _) ⟨hg, hself ▸ Finset.singleton_nonempty s⟩
    · rw [Finset.mem_insert, or_iff_right he, hc.mem]
      exact and_congr_right fun h => by rw [hother g' h he]
  · by_cases he : g' = g
    · subst he
      rw [hself, hgroups, Function.update_self, Finset.card_singleton]
    · have hin := (Finset.mem_insert.mp hg').resolve_left he
      rw [hother g' ((hc.mem g').mp hin).1 he, hgroups, Function.update_of_ne he]
      exact hc.refs g' hin

/-- A child that was in no group joins one. -/
theorem Counted.attach (hcount : Counted m S G) (hc : c ∈ S) (h0 : (m.spaces c).cow = 0)
    (hg : g ∈ G) : Counted (m.attach c g) S G := by
  have hcow : ∀ x, ((m.attach c g).spaces x).cow = if x = c then g else (m.spaces x).cow := by
    intro x
    simp only [Mmu.attach, Mmu.linkTables, Mmu.setGroup_spaces, Mmu.setSpace_spaces,
      Function.update_idem, Function.update_self]
    rw [Function.update_apply]
    split <;> rfl
  have hgroups : (m.attach c g).groups
      = Function.update m.groups g { m.groups g with refs := (m.groups g).refs + 1 } := rfl
  have hg0 := ((hcount.mem g).mp hg).1
  have hnot : ∀ g', g' ≠ 0 → c ∉ members m S g' := fun g' h h' =>
    h ((Finset.mem_filter.mp h').2.symm.trans h0)
  have hmem : ∀ g', g' ≠ 0 → members (m.attach c g) S g'
      = if g = g' then insert c (members m S g') else members m S g' := by
    intro g' h
    rw [members_of_cow hc hcow, Finset.erase_eq_of_notMem (hnot g' h)]
  refine ⟨fun g' => ?_, fun g' hg' => ?_⟩
  · rw [hcount.mem]
    refine and_congr_right fun h => ?_
    rw [hmem g' h]
    split
    · next he =>
      subst he
      exact iff_of_true ((hcount.mem g).mp hg).2 (Finset.insert_nonempty _ _)
    · rfl
  · have h := ((hcount.mem g').mp hg').1
    rw [hmem g' h, hgroups]
    split
    · next he =>
      subst he
      rw [Finset.card_insert_of_notMem (hnot g h), Function.update_self, hcount.refs g hg]
    · next he =>
      rw [Function.update_of_ne (Ne.symm he)]
      exact hcount.refs g' hg'

/-! ## What a fault takes and gives back -/

omit [PageAlloc H] in
theorem mapPage_eq (m : Mmu H) (s va frame : ℕ) (user : Bool) :
    ∃ tables, (m.mapPage s va frame user).2 = { m with tables := tables } := by
  rw [Mmu.mapPage]
  split
  · exact ⟨m.tables, rfl⟩
  · split
    · exact ⟨m.tables, rfl⟩
    · dsimp only
      split
      · exact ⟨m.tables, rfl⟩
      · exact ⟨_, rfl⟩

/-- No space names another group, and the groups are as before. -/
structure SameGroups (m m' : Mmu H) : Prop where
  groups : m'.groups = m.groups
  cow : ∀ x, (m'.spaces x).cow = (m.spaces x).cow

theorem unshare_spec (m : Mmu H) (s : ℕ) : SameGroups m (m.unshare s).2 ∧
    ((m.unshare s).1 = true ∧ (∃ n, (m.unshare s).2.heap = takePages m.heap n) ∨
      (m.unshare s).1 = false ∧ (m.unshare s).2.heap
        = [pageAt m.heap 0, pageAt m.heap 1].foldl free (takePages m.heap 2)) := by
  simp only [Mmu.unshare]
  split_ifs with h0 h1 h2
  · exact ⟨⟨rfl, fun _ => rfl⟩, Or.inl ⟨rfl, 0, rfl⟩⟩
  · exact ⟨⟨rfl, fun _ => rfl⟩, Or.inl ⟨rfl, 0, rfl⟩⟩
  · exact ⟨⟨rfl, fun _ => rfl⟩, Or.inr ⟨rfl, rfl⟩⟩
  · refine ⟨⟨rfl, fun x => ?_⟩, Or.inl ⟨rfl, 2, rfl⟩⟩
    by_cases hx : x = s
    · subst hx
      simp only [Mmu.linkTables, Mmu.setSpace_spaces, Function.update_self]
      rfl
    · simp only [Mmu.linkTables, Mmu.setSpace_spaces, Function.update_of_ne hx]
      rfl

/-- **A fault** takes pages and keeps them, or takes three and gives them back. -/
theorem spaceCowFault_heap (m : Mmu H) (s va : ℕ) : SameGroups m (m.spaceCowFault s va).2 ∧
    ((∃ n, (m.spaceCowFault s va).2.heap = takePages m.heap n) ∨
      (m.spaceCowFault s va).2.heap
        = [pageAt m.heap 1, pageAt m.heap 2, pageAt m.heap 0].foldl free (takePages m.heap 3)) := by
  rw [Mmu.spaceCowFault]
  split
  · exact ⟨⟨rfl, fun _ => rfl⟩, Or.inl ⟨0, rfl⟩⟩
  dsimp only
  split
  · exact ⟨⟨rfl, fun _ => rfl⟩, Or.inl ⟨0, rfl⟩⟩
  split
  · exact ⟨⟨rfl, fun _ => rfl⟩, Or.inl ⟨0, rfl⟩⟩
  split
  · exact ⟨⟨rfl, fun _ => rfl⟩, Or.inl ⟨1, rfl⟩⟩
  set m2 := m.kframeAlloc.2.setMem _ with hm2
  have hheap2 : m2.heap = takePages m.heap 1 := rfl
  obtain ⟨hsame, hheap⟩ := unshare_spec m2 s
  rcases hu : m2.unshare s with ⟨ok, m3⟩
  rw [hu] at hsame hheap
  rcases hheap with ⟨rfl, n, hn⟩ | ⟨rfl, hn⟩
  · obtain ⟨tables, ht⟩ := mapPage_eq m3 s (Mmu.pageOf va) m.kframeAlloc.1 true
    dsimp only
    rw [ht]
    refine ⟨⟨hsame.groups, hsame.cow⟩, Or.inl ⟨n + 1, ?_⟩⟩
    exact hn.trans (by rw [hheap2]; rfl)
  · refine ⟨⟨hsame.groups, hsame.cow⟩, Or.inr ?_⟩
    change free m3.heap _ = _
    rw [show m3.heap = _ from hn, hheap2]
    rfl

theorem unshare_boot (m : Mmu H) (s : ℕ) : (m.unshare s).2.boot = m.boot := by
  simp only [Mmu.unshare]
  split_ifs <;> rfl

theorem spaceCowFault_boot (m : Mmu H) (s va : ℕ) : (m.spaceCowFault s va).2.boot = m.boot := by
  rw [Mmu.spaceCowFault]
  split
  · rfl
  dsimp only
  split
  · rfl
  split
  · rfl
  split
  · rfl
  set m₁ := m.kframeAlloc.2.setMem _
  have h : (m₁.unshare s).2.boot = m.boot := unshare_boot m₁ s
  rcases hu : m₁.unshare s with ⟨ok, m₂⟩
  rw [hu] at h
  cases ok with
  | false => exact h
  | true =>
    obtain ⟨tables, ht⟩ := mapPage_eq m₂ s (Mmu.pageOf va) m.kframeAlloc.1 true
    dsimp only
    rw [ht]
    exact h

/-- A fault leaves the spaces in order, whatever the tables say. -/
theorem Wf.fault (hw : Wf sz m ty S) (va : ℕ) (hs : s ∈ S) {d : D} (hd : sz d = 4096) :
    ∃ ty', Wf sz (m.spaceCowFault s va).2 ty' S := by
  rw [Mmu.spaceCowFault]
  by_cases hc : (m.spaces s).cow = 0
  · rw [if_pos (Or.inr hc)]
    exact ⟨ty, hw⟩
  rw [if_neg (not_or.mpr ⟨hw.ne_zero hs, hc⟩)]
  dsimp only
  split
  · exact ⟨ty, hw⟩
  split
  · exact ⟨ty, hw⟩
  rcases hk : m.kframeAlloc with ⟨nf, m1⟩
  obtain ⟨l1, t1⟩ := hw.built.kframeAlloc hk
  have hm1 : m1 = m.setHeap m1.heap := l1.heap
  dsimp only
  split
  · exact ⟨ty, l1.wf hw⟩
  next hnf =>
  obtain ⟨ty1, k1, b1⟩ := t1 hnf (.data d) hd
  set mem := Bytes.memcpy m1.mem nf m1.mem _ 4096
  have hw2 : Wf sz (m1.setMem mem) ty1 S := (hw.data k1 b1).1.congr rfl rfl rfl
  have hc2 : ((m1.setMem mem).spaces s).cow ≠ 0 := by
    rw [hm1]
    exact hc
  have hun := hw2.unshare hs hc2
  rcases hu : (m1.setMem mem).unshare s with ⟨ok, m3⟩
  rw [hu] at hun
  rcases hun with ⟨rfl, hb3⟩ | ⟨rfl, ty3, hw3, -⟩
  · -- the page for the copy is given back
    have hw0 : Wf sz (m.setMem mem) ty S := hw.congr rfl rfl rfl
    refine ⟨ty, Built.wf (m := m.setMem mem) ⟨?_, ?_⟩ hw0⟩
    · change m3.setHeap (free m3.heap nf) = _
      rw [show m3 = _ from hb3.heap, hm1]
      rfl
    · refine (hb3.typed.free k1.self).mono fun q l hq => ?_
      rw [Function.update_of_ne (k1.ne hq)]
      exact k1.old q l hq
  · obtain ⟨tables, ht⟩ := mapPage_eq m3 s (Mmu.pageOf va) nf true
    dsimp only
    rw [ht]
    exact ⟨ty3, hw3.congr rfl rfl rfl⟩

/-! ## Pools of spaces -/

/-- Spaces over a heap that is watched. -/
structure Pool (H : Type) where
  m : Mmu (Audit H)
  /-- The spaces that were made and not destroyed. -/
  live : Finset ℕ
  /-- The groups that were made and whose count has not come to zero. -/
  groups : Finset ℕ

/-- What can be done with the spaces. -/
inductive Op where
  | create
  | share (c p : ℕ)
  | fault (s va : ℕ)
  | destroy (s : ℕ)
  /-- Entries and frames are written. -/
  | touch (tables : ℕ → Table) (mem : Bytes)

/-- The space that leaves its group. -/
def Op.leaver (m : Mmu H) : Op → Option ℕ
  | .share _ p => if m.Strayed p then some p else none
  | .destroy s => if s = m.boot then none else some s
  | _ => none

/-- The last space that names the group leaves it. -/
def Op.Ends (m : Mmu H) (op : Op) (g : ℕ) : Prop :=
  ∃ s, op.leaver m = some s ∧ (m.spaces s).cow = g ∧ (m.groups g).refs = 1

namespace Pool

def step (w : Pool H) : Op → Pool H
  | .create =>
    let r := w.m.spaceCreate
    ⟨r.2, if r.1 = 0 then w.live else insert r.1 w.live, w.groups⟩
  | .share c p =>
    let r := w.m.spaceShareUser c p
    let left := if w.m.Strayed p then survivors w.m p w.groups else w.groups
    ⟨r.2, w.live, if r.1 then insert (r.2.spaces p).cow left else left⟩
  | .fault s va => ⟨(w.m.spaceCowFault s va).2, w.live, w.groups⟩
  | .destroy s =>
    if s = w.m.boot then w
    else ⟨w.m.spaceDestroy s, w.live.erase s, survivors w.m s w.groups⟩
  | .touch tables mem => ⟨{ w.m with tables := tables, mem := mem }, w.live, w.groups⟩

/-- The calls are on live spaces, and a child that is to share is not in a group yet. -/
def Allowed (w : Pool H) : Op → Prop
  | .share c p => c ∈ w.live ∧ p ∈ w.live ∧ c ≠ p ∧ (w.m.spaces c).cow = 0
  | .fault s _ => s ∈ w.live
  | .destroy s => s ∈ w.live
  | _ => True

/-- The states after calls of any kind in any order. -/
inductive Reachable (w₀ : Pool H) : Pool H → Prop where
  | refl : Reachable w₀ w₀
  | step {w : Pool H} (op : Op) : Reachable w₀ w → w.Allowed op → Reachable w₀ (w.step op)

/-! ## The invariant -/

/-- The pages of a group. -/
def groupAll (m : Mmu H) (g : ℕ) : List ℕ := [(m.groups g).ptCode, (m.groups g).ptHeap, g]

/-- The spaces are in order, the counts are right, and nothing was given back that was not out. -/
structure Good (w : Pool H) (ty : ℕ → Option (Kind Unit)) : Prop where
  /-- Spaces, groups and tables are in order. -/
  wf : Wf (fun _ => 4096) w.m ty w.live
  /-- The counts are right. -/
  counted : Counted w.m w.live w.groups
  /-- Nothing was given back twice. -/
  once : ∀ e ∈ w.m.heap.log, e.2 = true

variable {w w' : Pool H} {wty : ℕ → Option (Kind Unit)} {L : List ℕ} {op : Op}

theorem Good.group (hw : w.Good wty) (hg : g ∈ w.groups) : wty g = some .group := by
  obtain ⟨h0, x, hx⟩ := (hw.counted.mem g).mp hg
  obtain ⟨hl, rfl⟩ := Finset.mem_filter.mp hx
  exact hw.wf.cow x hl h0

theorem Good.groupAll_kind (hw : w.Good wty) (hg : g ∈ w.groups) {x : ℕ} (hx : x ∈ groupAll w.m g) :
    ∃ k, wty x = some k ∧ (x = g ∧ k = .group ∨ ∃ h, k = .shared g h) := by
  have hk := hw.group hg
  simp only [groupAll, List.mem_cons, List.not_mem_nil, or_false] at hx
  rcases hx with rfl | rfl | rfl
  · exact ⟨_, hw.wf.shared g hk .code, Or.inr ⟨_, rfl⟩⟩
  · exact ⟨_, hw.wf.shared g hk .heap, Or.inr ⟨_, rfl⟩⟩
  · exact ⟨_, hk, Or.inl ⟨rfl, rfl⟩⟩

/-- The list `L` has the pages of the groups that end with the call, each once, and no page of
another group. -/
def Settles (w : Pool H) (op : Op) (L : List ℕ) : Prop :=
  ∀ g ∈ w.groups, ∀ x ∈ groupAll w.m g, (op.Ends w.m g → L.count x = 1) ∧
    (¬op.Ends w.m g → L.count x = 0)

/-- What one call does. -/
structure Stepped (w : Pool H) (op : Op) (w' : Pool H) (L : List ℕ) : Prop where
  /-- Everything is in order. -/
  wf : ∃ ty, Wf (D := Unit) (fun _ => 4096) w'.m ty w'.live
  /-- The counts are right. -/
  counted : Counted w'.m w'.live w'.groups
  /-- The call gave these pages back, -/
  gave : Gave w.m.heap w'.m.heap L
  /-- and they are the ones it should. -/
  settles : w.Settles op L

theorem Stepped.good (hs : Stepped w op w' L) (hw : w.Good wty) : ∃ ty, w'.Good ty := by
  obtain ⟨ty, hty⟩ := hs.wf
  refine ⟨ty, hty, hs.counted, fun e he => ?_⟩
  rw [show _ = _ from hs.gave] at he
  rcases List.mem_append.mp he with he | he
  · exact hw.once e he
  · obtain ⟨p, -, rfl⟩ := List.mem_map.mp he
    rfl

/-- Pages that were not in use are pages of no group. -/
theorem Good.settles_fresh (hw : w.Good wty) (hL : ∀ q ∈ L, wty q = none)
    (hop : op.leaver w.m = none) : w.Settles op L := by
  intro g hg x hx
  obtain ⟨k, hk, -⟩ := hw.groupAll_kind hg hx
  constructor
  · rintro ⟨s, hs, -⟩
    rw [hop] at hs
    cases hs
  · intro _
    refine List.count_eq_zero.mpr fun hxL => ?_
    rw [hL x hxL] at hk
    cases hk

/-- The pages that come back when a space leaves its group: those of the group only when it was
the last one to name it. -/
theorem Good.settles_leaver (hw : w.Good wty) (hs : s ∈ w.live) (hop : op.leaver w.m = some s)
    (hc : (w.m.spaces s).cow ≠ 0) (hnd : L.Nodup)
    (hin : (w.m.groups (w.m.spaces s).cow).refs - 1 = 0 →
      ∀ x ∈ groupAll w.m (w.m.spaces s).cow, x ∈ L)
    (hL : ∀ q ∈ L, ∀ k, wty q = some k → (k = .group ∨ ∃ g h, k = .shared g h) →
      (w.m.groups (w.m.spaces s).cow).refs - 1 = 0 ∧
        (q = (w.m.spaces s).cow ∨ ∃ h, k = .shared (w.m.spaces s).cow h)) :
    w.Settles op L := by
  have hself : (w.m.spaces s).cow ∈ w.groups :=
    (hw.counted.mem _).mpr ⟨hc, s, Finset.mem_filter.mpr ⟨hs, rfl⟩⟩
  have hpos : 0 < (w.m.groups (w.m.spaces s).cow).refs := by
    rw [hw.counted.refs _ hself]
    exact Finset.card_pos.mpr ((hw.counted.mem _).mp hself).2
  intro g hg x hx
  constructor
  · rintro ⟨s', hs', rfl, hrefs⟩
    obtain rfl : s = s' := Option.some.inj (hop.symm.trans hs')
    exact List.count_eq_one_of_mem hnd (hin (by rw [hrefs]) x hx)
  · intro hne
    refine List.count_eq_zero.mpr fun hxL => hne ?_
    obtain ⟨k, hk, hkind⟩ := hw.groupAll_kind hg hx
    obtain ⟨hrefs, hq⟩ := hL x hxL k hk (hkind.imp And.right fun ⟨h, e⟩ => ⟨_, h, e⟩)
    have hcow : (w.m.spaces s).cow = g := by
      rcases hkind with ⟨rfl, rfl⟩ | ⟨h, rfl⟩
      · rcases hq with hq | ⟨h, hq⟩
        · exact hq.symm
        · cases hq
      · rcases hq with rfl | ⟨h', hq⟩
        · rw [hw.group hself] at hk
          cases hk
        · exact (Kind.shared.inj hq).1.symm
    refine ⟨s, hop, hcow, ?_⟩
    rw [← hcow]
    omega

/-- A space that is in no group takes no group with it. -/
theorem Good.settles_free (hw : w.Good wty) (hop : ∀ s, op.leaver w.m = some s →
      (w.m.spaces s).cow = 0)
    (hL : ∀ q ∈ L, ∀ k, wty q = some k → k ≠ .group ∧ ∀ g h, k ≠ .shared g h) :
    w.Settles op L := by
  intro g hg x hx
  obtain ⟨k, hk, hkind⟩ := hw.groupAll_kind hg hx
  constructor
  · rintro ⟨s, hs, rfl, -⟩
    exact absurd (hop s hs) ((hw.counted.mem _).mp hg).1
  · intro _
    refine List.count_eq_zero.mpr fun hxL => ?_
    obtain ⟨h1, h2⟩ := hL x hxL k hk
    rcases hkind with ⟨-, h⟩ | ⟨h, h'⟩
    · exact h1 h
    · exact h2 g h h'

theorem Good.live_of_kind (hw : w.Good wty) {q : ℕ} {k : Kind Unit} (hq : wty q = some k) :
    (PageAlloc.live w.m.heap q).isSome := by
  rw [hw.wf.typed q k hq]
  rfl

/-! ## One call -/

theorem Good.step_create (hw : w.Good wty) : Stepped w .create (w.step .create) [] := by
  obtain ⟨n, hheap, -, hgroups, -⟩ := Mmu.spaceCreate_skip w.m
  have hgave : Gave w.m.heap w.m.spaceCreate.2.heap [] := by
    rw [hheap]
    exact (Gave.refl _).takePages n
  have hset : w.Settles .create [] := hw.settles_fresh (fun q hq => by cases hq) rfl
  rcases hw.wf.spaceCreate with ⟨h0, hb⟩ | ⟨h0, hcr⟩
  · have hstep : w.step .create = ⟨w.m.spaceCreate.2, w.live, w.groups⟩ := by
      simp only [step, if_pos h0]
    rw [hstep]
    refine ⟨⟨wty, hb.wf hw.wf⟩, hw.counted.congr (fun x _ => ?_) fun g => ?_, hgave, hset⟩
    · rw [hb.heap]
      rfl
    · rw [hgroups]
  · have hstep : w.step .create
        = ⟨w.m.spaceCreate.2, insert w.m.spaceCreate.1 w.live, w.groups⟩ := by
      simp only [step, if_neg h0]
    rw [hstep]
    obtain ⟨ty', hw', hsh⟩ := hcr.wf
    exact ⟨⟨ty', hw'⟩, hw.counted.create hsh.spaces hgroups hcr.cow, hgave, hset⟩

theorem Good.step_fault (hw : w.Good wty) (va : ℕ) (hs : s ∈ w.live) :
    ∃ L, Stepped w (.fault s va) (w.step (.fault s va)) L := by
  obtain ⟨hsame, hheap⟩ := spaceCowFault_heap w.m s va
  have hwf := hw.wf.fault va hs (d := ()) rfl
  have hcount : Counted (w.m.spaceCowFault s va).2 w.live w.groups :=
    hw.counted.congr (fun x _ => hsame.cow x) fun g => by rw [hsame.groups]
  rcases hheap with ⟨n, hn⟩ | hn
  · refine ⟨[], hwf, hcount, ?_, hw.settles_fresh (fun q hq => by cases hq) rfl⟩
    change Gave w.m.heap (w.m.spaceCowFault s va).2.heap []
    rw [hn]
    exact (Gave.refl _).takePages n
  · set pages := [pageAt w.m.heap 1, pageAt w.m.heap 2, pageAt w.m.heap 0] with hpages
    have hgrew : Grew w.m.heap (takePages w.m.heap 3) (pages.filter (· ≠ 0) ++ []) := by
      have h1 := (Grew.refl w.m.heap).allocOr (n := 1) (by decide)
      have h2 := h1.allocOr (n := 1) (by decide)
      have h3 := h2.allocOr (n := 1) (by decide)
      refine h3.perm ?_
      rw [hpages, List.append_nil, List.append_nil, ← List.filter_append, ← List.filter_append]
      refine List.Perm.filter _ ?_
      change [pageAt w.m.heap 2, pageAt w.m.heap 1, pageAt w.m.heap 0].Perm _
      exact List.Perm.swap _ _ _
    refine ⟨pages.filter (· ≠ 0), hwf, hcount, ?_, hw.settles_fresh (fun q hq => ?_) rfl⟩
    · change Gave w.m.heap (w.m.spaceCowFault s va).2.heap _
      rw [hn]
      exact ((Gave.refl _).takePages 3).freeNonzero hgrew
    · have hfree := (hgrew.mine q (List.mem_append_left _ hq)).2
      cases hty : wty q with
      | none => rfl
      | some k =>
        have := hw.live_of_kind hty
        rw [hfree] at this
        cases this

theorem Good.step_destroy (hw : w.Good wty) (hs : s ∈ w.live) :
    ∃ L, Stepped w (.destroy s) (w.step (.destroy s)) L := by
  by_cases hb : s = w.m.boot
  · have hstep : w.step (.destroy s) = w := if_pos hb
    rw [hstep]
    refine ⟨[], ⟨wty, hw.wf⟩, hw.counted, .refl _, hw.settles_fresh (fun q hq => by cases hq) ?_⟩
    exact if_pos hb
  have hstep : w.step (.destroy s)
      = ⟨w.m.spaceDestroy s, w.live.erase s, survivors w.m s w.groups⟩ := if_neg hb
  have hop : (Op.destroy s).leaver w.m = some s := if_neg hb
  obtain ⟨m', hm', hheap, -⟩ := spaceDestroy_eq w.m (hw.wf.ne_zero hs) hb
  obtain ⟨hnd, hpages, -⟩ := hw.wf.destroyPages_spec hs Iff.rfl
  obtain ⟨ty', hw', -⟩ := hw.wf.spaceDestroy hs
  rw [hstep]
  refine ⟨destroyPages w.m s, ⟨ty', hw'⟩, hw.counted.spaceDestroy hs (hw.wf.ne_zero hs) hb, ?_, ?_⟩
  · change Gave w.m.heap (w.m.spaceDestroy s).heap _
    rw [hm', hheap]
    refine (Gave.refl w.m.heap).freeAll hnd fun q hq => ?_
    obtain ⟨k, hk, -⟩ := hpages q hq
    exact hw.live_of_kind hk
  · -- which kinds go
    have hkind : ∀ q ∈ destroyPages w.m s, ∀ k, wty q = some k →
        (k = .group ∨ ∃ g h, k = .shared g h) →
        ((w.m.spaces s).cow ≠ 0 ∧ (w.m.groups (w.m.spaces s).cow).refs - 1 = 0) ∧
          (q = (w.m.spaces s).cow ∨ ∃ h, k = .shared (w.m.spaces s).cow h) := by
      intro q hq k hk hkind
      obtain ⟨k', hk', hout⟩ := hpages q hq
      obtain rfl : k = k' := Option.some.inj (hk.symm.trans hk')
      exact hout.of_group hk (hw.wf.space s hs) hkind
    by_cases hc : (w.m.spaces s).cow = 0
    · refine hw.settles_free (fun s' hs' => ?_) fun q hq k hk => ?_
      · obtain rfl : s = s' := Option.some.inj (hop.symm.trans hs')
        exact hc
      · refine ⟨fun h => ?_, fun g h h' => ?_⟩
        · exact (hkind q hq k hk (Or.inl h)).1.1 hc
        · exact (hkind q hq k hk (Or.inr ⟨g, h, h'⟩)).1.1 hc
    · refine hw.settles_leaver hs hop hc hnd (fun h x hx => ?_) fun q hq k hk hk' => ?_
      · rw [destroyPages, if_neg hc, groupPages, if_pos h]
        exact List.mem_append_right _ (List.mem_append_left _ hx)
      · obtain ⟨h1, h2⟩ := hkind q hq k hk hk'
        exact ⟨h1.2, h2⟩

/-- The group that is given back when a space leaves the one it has strayed from. -/
def leftPages (m : Mmu H) (p : ℕ) : List ℕ :=
  if m.Strayed p then groupPages m (m.spaces p).cow else []

theorem Good.leftPages_spec (hw : w.Good wty) (hp : p ∈ w.live) :
    (leftPages w.m p).Nodup ∧ Gave w.m.heap (w.m.leaveGroup p).heap (leftPages w.m p) ∧
      (∀ q ∈ leftPages w.m p, ∃ k, wty q = some k ∧ (k = .group ∨ ∃ g h, k = .shared g h) ∧
        w.m.Strayed p ∧
        (w.m.groups (w.m.spaces p).cow).refs - 1 = 0 ∧
          (q = (w.m.spaces p).cow ∨ ∃ h, k = .shared (w.m.spaces p).cow h)) ∧
      (w.m.Strayed p → (w.m.groups (w.m.spaces p).cow).refs - 1 = 0 →
        ∀ x ∈ groupAll w.m (w.m.spaces p).cow, x ∈ leftPages w.m p) := by
  rw [leftPages, Mmu.leaveGroup_heap, Mmu.leaveHeap]
  by_cases hst : w.m.Strayed p
  · rw [if_pos hst, if_pos hst]
    obtain ⟨hnd, hpages, -⟩ := hw.wf.groupPages_spec hp hst.1
    refine ⟨hnd, (Gave.refl w.m.heap).freeAll hnd fun q hq => ?_,
      fun q hq => ?_, fun _ h x hx => ?_⟩
    · obtain ⟨k, hk, -⟩ := hpages q hq
      exact hw.live_of_kind hk
    · obtain ⟨k, hk, hkind, hout⟩ := hpages q hq
      have hkind' : k = .group ∨ ∃ g h, k = .shared g h := hkind.imp id (Exists.intro _)
      exact ⟨k, hk, hkind', hst, hout.of_group hk (hw.wf.space p hp) hkind'⟩
    · rw [groupPages, if_pos h]
      exact hx
  · rw [if_neg hst, if_neg hst]
    exact ⟨List.nodup_nil, .refl _, fun q hq => absurd hq List.not_mem_nil, fun h => absurd h hst⟩

/-- **These pages and pages of the child** are what sharing may give back. -/
theorem Good.settles_share (hw : w.Good wty) (hp : p ∈ w.live) {L : List ℕ}
    (hnd : (leftPages w.m p ++ L).Nodup)
    (hL : ∀ q ∈ L, ∃ h, wty q = some (.own c h)) : w.Settles (.share c p)
    (leftPages w.m p ++ L) := by
  obtain ⟨-, -, hkind, hin⟩ := hw.leftPages_spec hp
  have hown : ∀ q ∈ L, ∀ k, wty q = some k → ¬(k = .group ∨ ∃ g h, k = .shared g h) := by
    intro q hq k hk hkind
    obtain ⟨h, hown⟩ := hL q hq
    obtain rfl : k = .own c h := Option.some.inj (hk.symm.trans hown)
    rcases hkind with h | ⟨g, h, h'⟩
    · cases h
    · cases h'
  by_cases hst : w.m.Strayed p
  · refine hw.settles_leaver hp (if_pos hst) hst.1 hnd
      (fun h x hx => List.mem_append_left _ (hin hst h x hx)) fun q hq k hk hkind' => ?_
    rcases List.mem_append.mp hq with hq | hq
    · obtain ⟨k', hk', -, -, hout⟩ := hkind q hq
      obtain rfl : k = k' := Option.some.inj (hk.symm.trans hk')
      exact hout
    · exact absurd hkind' (hown q hq k hk)
  · refine hw.settles_free (fun s hs => ?_) fun q hq k hk => ?_
    · have : (none : Option ℕ) = some s := (if_neg hst).symm.trans hs
      cases this
    · rcases List.mem_append.mp hq with hq | hq
      · obtain ⟨-, -, -, h, -⟩ := hkind q hq
        exact absurd h hst
      · exact ⟨fun h => hown q hq k hk (Or.inl h), fun g h h' => hown q hq k hk (Or.inr ⟨g, h, h'⟩)⟩

theorem Good.spaceShareUser_eq (hw : w.Good wty) (hc : c ∈ w.live) (hp : p ∈ w.live) (hne : c ≠ p) :
    w.m.spaceShareUser c p =
      if ((w.m.leaveGroup p).enterGroup p).1 = 0 then
        (false, ((w.m.leaveGroup p).enterGroup p).2)
      else (true, ((((w.m.leaveGroup p).enterGroup p).2.protect
        ((w.m.leaveGroup p).enterGroup p).1).linkTables p).attach c
          ((w.m.leaveGroup p).enterGroup p).1) := by
  have hpt : ∀ h, (w.m.spaces p).pt h ≠ 0 := hw.wf.pt_ne_zero hp
  rw [Mmu.spaceShareUser, if_neg]
  rintro (h | h | h | h | h)
  · exact hw.wf.ne_zero hc h
  · exact hw.wf.ne_zero hp h
  · exact hne h
  · exact hpt .code h
  · exact hpt .heap h

/-- Sharing gives back the group the parent had strayed from, when it was the last one there, and
the tables the child had. -/
theorem Good.step_share (hw : w.Good wty) (hc : c ∈ w.live) (hp : p ∈ w.live) (hne : c ≠ p)
    (h0 : (w.m.spaces c).cow = 0) :
    ∃ L, Stepped w (.share c p) (w.step (.share c p)) L := by
  set left := if w.m.Strayed p then survivors w.m p w.groups else w.groups with hleft
  have hown0 : ∀ h, wty ((w.m.spaces c).pt h) = some (.own c h) :=
    (hw.wf.table c hc).resolve_left fun ha => ha.1 h0
  -- the group that is left
  obtain ⟨ty0, hw0, hsh0, -, hcow0⟩ := hw.wf.leaveGroup hp
  have hcount0 : Counted (w.m.leaveGroup p) w.live left := hw.counted.leaveGroup hp
  obtain ⟨hbacknd, hgave0, hbackkind, -⟩ := hw.leftPages_spec hp
  have hshare := hw.spaceShareUser_eq hc hp hne
  -- the group that is entered
  obtain ⟨-, hspaces1, hheap1⟩ := Mmu.enterGroup_spec (w.m.leaveGroup p) p hne
  have hgave1 : Gave w.m.heap ((w.m.leaveGroup p).enterGroup p).2.heap (leftPages w.m p) := by
    rw [hheap1]
    exact hgave0.takePages _
  have hc0 : (w.m.leaveGroup p).spaces c = w.m.spaces c := Mmu.leaveGroup_spaces hne
  have hcount1 := fun h => hcount0.enterGroup hp h hw0.members_fresh
  have henter := hw0.enterGroup hp (hcow0.imp id And.left)
  rcases hg : (w.m.leaveGroup p).enterGroup p with ⟨g, m1⟩
  rw [hg] at hshare hspaces1 hgave1 hcount1 henter
  by_cases hg0 : g = 0
  · -- no page for a group
    have hstep : w.step (.share c p) = ⟨m1, w.live, left⟩ := by
      simp only [Pool.step, hshare, if_pos hg0]
      rfl
    rw [hstep]
    rcases henter with ⟨-, hb⟩ | ⟨h, -⟩
    swap
    · exact absurd hg0 h
    refine ⟨leftPages w.m p, ⟨ty0, hb.wf hw0⟩, hcount0.congr (fun x _ => ?_) fun g => ?_, hgave1,
      ?_⟩
    · rw [show m1 = _ from hb.heap]
      rfl
    · rw [show m1 = _ from hb.heap]
      rfl
    · have :=
        hw.settles_share (c := c) hp (L := []) (by rwa [List.append_nil]) fun q hq => by cases hq
      rwa [List.append_nil] at this
  · rcases henter with ⟨h, -⟩ | ⟨-, ty1, hw1, -, hatt1, hcow1, -, -, -, -, -, -⟩
    · exact absurd h hg0
    have hw2 : Wf (fun _ => 4096) (m1.protect g) ty1 w.live := hw1.congr rfl rfl rfl
    have hlink : (m1.protect g).linkTables p = m1.protect g := linkTables_eq_self (hw2.link p hp)
    rw [if_neg hg0, hlink] at hshare
    have hc1 : (m1.protect g).spaces c = w.m.spaces c := hspaces1.trans hc0
    have hg1 : ty1 g = some .group := by
      rw [← show (m1.spaces p).cow = g from hcow1]
      exact hw1.cow p hp hatt1.1
    obtain ⟨ty3, hw3, hsh3, -⟩ := hw2.attach hc (by rw [hc1]; exact h0) hg1
    have hcowp : (((m1.protect g).attach c g).spaces p).cow = g := by
      rw [hsh3.spaces p (Finset.mem_erase.mpr ⟨hne.symm, hp⟩)]
      exact hcow1
    have hstep : w.step (.share c p) = ⟨(m1.protect g).attach c g, w.live, insert g left⟩ := by
      simp only [Pool.step, hshare, if_true, hcowp]
      rfl
    rw [hstep]
    have hcount2 : Counted (m1.protect g) w.live (insert g left) :=
      (hcount1 hg0).congr (fun _ _ => rfl) fun _ => rfl
    have hown1 : ∀ h, ty1 ((w.m.spaces c).pt h) = some (.own c h) := by
      intro h
      rw [← hc1]
      refine (hw2.table c hc).resolve_left (fun ha => ?_) h
      rw [Attached, hc1] at ha
      exact ha.1 h0
    have hnd : (ownPages w.m c).Nodup ∧ ∀ q ∈ ownPages w.m c, ∃ h, q = (w.m.spaces c).pt h := by
      refine ⟨(hw.wf.ownPages_spec hc (Or.inl h0) False).1, fun q hq => ?_⟩
      simp only [ownPages, List.mem_cons, List.not_mem_nil, or_false] at hq
      rcases hq with rfl | rfl
      · exact ⟨.code, rfl⟩
      · exact ⟨.heap, rfl⟩
    refine ⟨leftPages w.m p ++ ownPages w.m c, ⟨ty3, hw3⟩, hcount2.attach hc (by rw [hc1]; exact h0)
      (Finset.mem_insert_self _ _), ?_, hw.settles_share hp ?_ fun q hq => ?_⟩
    · change Gave w.m.heap ((m1.protect g).attach c g).heap _
      rw [Mmu.attach_heap, hc1]
      refine hgave1.freeAll hnd.1 fun q hq => ?_
      obtain ⟨h, rfl⟩ := hnd.2 q hq
      rw [show PageAlloc.live m1.heap _ = _ from hw1.typed _ _ (hown1 h)]
      rfl
    · have hold : ∀ q ∈ leftPages w.m p, ∃ k, wty q = some k ∧
          (k = .group ∨ ∃ g h, k = .shared g h) := by
        intro q hq
        obtain ⟨k, hk, hkind, -⟩ := hbackkind q hq
        exact ⟨k, hk, hkind⟩
      have hnew : ∀ q ∈ ownPages w.m c, ∃ k, wty q = some k ∧ ∃ h, k = .own c h := by
        intro q hq
        obtain ⟨h, rfl⟩ := hnd.2 q hq
        exact ⟨_, hown0 h, h, rfl⟩
      refine nodup_append_of_kinds hbacknd hnd.1 hold hnew ?_
      · rintro k (rfl | ⟨g, h, rfl⟩) ⟨h', hk⟩
        · cases hk
        · cases hk
    · obtain ⟨h, rfl⟩ := hnd.2 q hq
      exact ⟨h, hown0 h⟩

/-- **One call.** -/
theorem Good.step (hw : w.Good wty) (hop : w.Allowed op) : ∃ L, Stepped w op (w.step op) L := by
  cases op with
  | create => exact ⟨[], hw.step_create⟩
  | share c p => exact hw.step_share hop.1 hop.2.1 hop.2.2.1 hop.2.2.2
  | fault s va => exact hw.step_fault va hop
  | destroy s => exact hw.step_destroy hop
  | touch tables mem =>
    exact ⟨[], ⟨wty, hw.wf.congr rfl rfl rfl⟩, hw.counted.congr (fun _ _ => rfl) fun _ => rfl,
      .refl _, hw.settles_fresh (fun q hq => by cases hq) rfl⟩

theorem Good.start (h : w.live = ∅) (hg : w.groups = ∅) (hlog : w.m.heap.log = []) :
    w.Good fun _ => none := by
  refine ⟨⟨fun p k hk => (by cases hk), ?_, ?_, ?_, ?_, ?_, fun g hg => (by cases hg),
    fun g hg => (by cases hg)⟩, ⟨fun g => ?_, fun g hg' => ?_⟩, fun e he => ?_⟩
  any_goals
    rw [h]
    exact fun s hs => absurd hs (Finset.notMem_empty s)
  · rw [h, hg]
    exact iff_of_false (Finset.notMem_empty g) fun h' => Finset.not_nonempty_empty h'.2
  · rw [hg] at hg'
    exact absurd hg' (Finset.notMem_empty g)
  · rw [hlog] at he
    cases he

theorem Reachable.good {w₀ : Pool H} (h₀ : w₀.Good wty) (hr : Reachable w₀ w) :
    ∃ ty, w.Good ty := by
  induction hr with
  | refl => exact ⟨wty, h₀⟩
  | step op hr hop ih =>
    obtain ⟨ty, hw⟩ := ih
    obtain ⟨L, hL⟩ := hw.step hop
    exact hL.good hw

/-! ## The statement -/

/-- No other space and no group has the table of the space. -/
def Exclusive (w : Pool H) (s : ℕ) (h : Half) : Prop :=
  (∀ s' ∈ w.live, ∀ h', (w.m.spaces s').pt h' = (w.m.spaces s).pt h → s' = s ∧ h' = h) ∧
    ∀ g ∈ w.groups, ∀ h', (w.m.groups g).pt h' ≠ (w.m.spaces s).pt h

/-- What holds at any time. -/
structure Sound (w : Pool H) : Prop where
  /-- A group that is named is there. -/
  named : ∀ s ∈ w.live, (w.m.spaces s).cow ≠ 0 → (w.m.spaces s).cow ∈ w.groups
  /-- Its count is that of its members. -/
  refs : ∀ g ∈ w.groups, 0 < (w.m.groups g).refs ∧
    (w.m.groups g).refs = (members w.m w.live g).card
  /-- Its tables are out, -/
  groupTables : ∀ g ∈ w.groups, ∀ x ∈ groupAll w.m g, (PageAlloc.live w.m.heap x).isSome
  /-- and so are those of each space. -/
  tables : ∀ s ∈ w.live, ∀ h, (PageAlloc.live w.m.heap ((w.m.spaces s).pt h)).isSome
  /-- A space has the tables of its group, or has its own alone. -/
  owner : ∀ s ∈ w.live, Attached w.m s ∨ ∀ h, Exclusive w s h
  /-- Nothing was given back twice. -/
  once : ∀ e ∈ w.m.heap.log, e.2 = true

theorem Good.sound (hw : w.Good wty) : w.Sound where
  named s hs h0 := (hw.counted.mem _).mpr ⟨h0, s, Finset.mem_filter.mpr ⟨hs, rfl⟩⟩
  refs g hg := by
    refine ⟨?_, hw.counted.refs g hg⟩
    rw [hw.counted.refs g hg]
    exact Finset.card_pos.mpr ((hw.counted.mem g).mp hg).2
  groupTables g hg x hx := by
    obtain ⟨k, hk, -⟩ := hw.groupAll_kind hg hx
    exact hw.live_of_kind hk
  tables s hs h := by
    obtain ⟨k, hk, -⟩ := hw.wf.exists_table hs h
    exact hw.live_of_kind hk
  owner s hs := by
    refine (hw.wf.table s hs).imp id fun ho h => ⟨fun s' hs' h' he => ?_, fun g hg h' he => ?_⟩
    · obtain ⟨hh, hss | ⟨-, ha, -⟩⟩ := hw.wf.table_eq hs' hs he
      · exact ⟨hss, hh⟩
      · exact absurd ha (hw.wf.not_attached hs (ho h))
    · have hk := hw.wf.shared g (hw.group hg) h'
      rw [he, ho h] at hk
      cases hk
  once := hw.once

end Pool

/-- **The counts of the groups.** From no spaces on, whatever calls are made: every group has as
many members as its count says, its tables are out, every space has tables that are out and are
those of its group or nobody else's, and nothing was given back that was not out. A call that
makes the last space leave a group gives each page of the group back, once; no other call gives
one back. -/
theorem group_counts (w₀ w : Pool H) (hlive : w₀.live = ∅) (hgroups : w₀.groups = ∅)
    (hlog : w₀.m.heap.log = []) (hr : Pool.Reachable w₀ w) :
    w.Sound ∧
      ∀ op, w.Allowed op → ∃ L, Gave w.m.heap (w.step op).m.heap L ∧ w.Settles op L := by
  obtain ⟨ty, hw⟩ := hr.good (Pool.Good.start hlive hgroups hlog)
  refine ⟨hw.sound, fun op hop => ?_⟩
  obtain ⟨L, hL⟩ := hw.step hop
  exact ⟨L, hL.gave, hL.settles⟩

/-- No spaces yet. -/
def Pool.nothing : Pool Bump := ⟨{ bare with heap := ⟨bare.heap, []⟩ }, ∅, ∅⟩

/-- A parent and its child, of which the child has gone again. -/
def Pool.widow : Pool Bump :=
  (((Pool.nothing.step .create).step .create).step (.share 61440 4096)).step (.destroy 61440)

theorem group_counts_widow : Pool.widow.Sound ∧ 118784 ∈ Pool.widow.groups ∧
    ∃ L, Gave Pool.widow.m.heap (Pool.widow.step (.destroy 4096)).m.heap L ∧
      Pool.widow.Settles (.destroy 4096) L := by
  have hr : Pool.Reachable Pool.nothing Pool.widow := by
    refine .step _ (.step _ (.step _ (.step _ .refl trivial) trivial) ⟨?_, ?_, ?_, ?_⟩) ?_
    · decide +kernel
    · decide +kernel
    · decide +kernel
    · decide +kernel
    · change 61440 ∈ Pool.live _
      decide +kernel
  obtain ⟨hs, hstep⟩ := group_counts Pool.nothing Pool.widow rfl rfl rfl hr
  refine ⟨hs, by decide +kernel, hstep (.destroy 4096) ?_⟩
  change 4096 ∈ Pool.live _
  decide +kernel

end Paging

end Aurisys
