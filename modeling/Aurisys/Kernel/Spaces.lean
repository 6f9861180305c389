import Aurisys.Kernel.Sharing

/-!
# What the calls on spaces take and give back

The heap after each call, as the series of requests the call makes: seven pages for a space, a page
for a group that a parent needs, and what comes back when a space goes or leaves its group.

## Main definitions

* `Strayed` — a space that is in its group in name only
* `leaveHeap`, `groupNeed` — what sharing gives back and takes

## Main results

* `spaceCreate_of_hasPages`, `spaceCreate_keeps`, `spaceCreate_fail`
* `spaceShareUser_spec`, `spaceShareUser_done`, `spaceShareUser_fail`
* `spaceDestroy_keep`
-/

namespace Aurisys

open Pages PageAlloc

namespace Paging.Mmu

variable {H : Type} [PageAlloc H] {m m' : Mmu H} {c p : ℕ} {h₀ : H}

/-! ## A new space -/

theorem spaceCreate_of_hasPages (h : HasPages m.heap 7) : m.spaceCreate = (pageAt m.heap 0,
    (((m.setHeap (takePages m.heap 7)).setTable (pageAt m.heap 5) .zero).setTable
      (pageAt m.heap 6) .zero).setSpace (pageAt m.heap 0)
        ⟨![pageAt m.heap 1, pageAt m.heap 2, pageAt m.heap 3, pageAt m.heap 4], pageAt m.heap 5,
          pageAt m.heap 6, pageAt m.heap 5, pageAt m.heap 6, 1, 0⟩) := by
  obtain ⟨h0, h1, h2, h3, h4, h5, h6, -⟩ := h
  simp only [spaceCreate, kframeAlloc, kframeAllocN, setHeap_heap]
  rw [if_neg h0, if_neg h1, if_neg h2, if_neg h3, if_neg h4, if_neg (not_or.mpr ⟨h5, h6⟩)]
  rfl

theorem spaceCreate_of_not_hasPages (h : ¬HasPages m.heap 7) : m.spaceCreate.1 = 0 := by
  simp only [spaceCreate, kframeAlloc, kframeAllocN, setHeap_heap]
  split_ifs with h0 h1 h2 h3 h4 h56
  any_goals rfl
  obtain ⟨h5, h6⟩ := not_or.mp h56
  exact absurd ⟨h0, h1, h2, h3, h4, h5, h6, trivial⟩ h

/-- **`space_create`** takes seven pages and leaves the active space alone. -/
theorem spaceCreate_grew {m : Mmu H} (hp : HasPages m.heap 7) :
    ∃ m', m.spaceCreate = (pageAt m.heap 0, m') ∧ m'.current = m.current ∧
      (m'.spaces (pageAt m.heap 0)).cow = 0 ∧ m'.heap = takePages m.heap 7 ∧
      Grew m.heap m'.heap (ownPages m' (pageAt m.heap 0) ++ spacePages m' (pageAt m.heap 0)) := by
  refine ⟨_, spaceCreate_of_hasPages hp, rfl, ?_, rfl, ?_⟩
  · rw [setSpace_spaces, Function.update_self]
  · have hg := (Grew.refl m.heap).takePages hp
    rw [List.append_nil] at hg
    have hperm : (List.range 7).Perm [5, 6, 1, 2, 3, 4, 0] := by decide
    have := hg.perm (hperm.map (pageAt m.heap))
    simp only [ownPages, spacePages, setSpace_spaces, Function.update_self]
    exact this

theorem spaceCreate_skip (m : Mmu H) :
    ∃ n, m.spaceCreate.2.heap = takePages m.heap n ∧ m.spaceCreate.2.current = m.current ∧
      m.spaceCreate.2.groups = m.groups ∧ m.spaceCreate.2.boot = m.boot := by
  simp only [spaceCreate]
  split_ifs
  · exact ⟨1, rfl, rfl, rfl, rfl⟩
  · exact ⟨2, rfl, rfl, rfl, rfl⟩
  · exact ⟨3, rfl, rfl, rfl, rfl⟩
  · exact ⟨4, rfl, rfl, rfl, rfl⟩
  · exact ⟨5, rfl, rfl, rfl, rfl⟩
  · exact ⟨7, rfl, rfl, rfl, rfl⟩
  · exact ⟨7, rfl, rfl, rfl, rfl⟩

/-- A space that is not made costs the pages taken for it, and changes nothing else. -/
theorem spaceCreate_fail (h : m.spaceCreate.1 = 0) :
    ∃ n, m.spaceCreate.2 = m.setHeap (takePages m.heap (n + 1)) ∧
      ((allocN m.heap 1).1 = 0 → n = 0) := by
  simp only [spaceCreate, kframeAlloc, kframeAllocN, setHeap_heap] at h ⊢
  split_ifs at h ⊢ with h0 h1 h2 h3 h4 h56
  · exact ⟨0, rfl, fun _ => rfl⟩
  · exact ⟨1, rfl, fun h => absurd h h0⟩
  · exact ⟨2, rfl, fun h => absurd h h0⟩
  · exact ⟨3, rfl, fun h => absurd h h0⟩
  · exact ⟨4, rfl, fun h => absurd h h0⟩
  · exact ⟨6, rfl, fun h => absurd h h0⟩
  · exact absurd h h0

/-- What `space_create` leaves as it was. -/
theorem spaceCreate_keeps (h : HasPages m.heap 7) {m₁ : Mmu H} (he : m.spaceCreate = (c, m₁)) :
    c = pageAt m.heap 0 ∧ m₁.heap = takePages m.heap 7 ∧ m₁.groups = m.groups ∧ m₁.boot = m.boot ∧
      (∀ x, x ≠ c → m₁.spaces x = m.spaces x) ∧
      (∀ x, x ≠ pageAt m.heap 5 → x ≠ pageAt m.heap 6 → m₁.tables x = m.tables x) ∧
      (m₁.spaces c).cow = 0 ∧ ownPages m₁ c ++ spacePages m₁ c
        = [5, 6, 1, 2, 3, 4, 0].map (pageAt m.heap) := by
  rw [spaceCreate_of_hasPages h] at he
  obtain ⟨rfl, rfl⟩ := Prod.mk.inj he
  refine ⟨rfl, rfl, rfl, rfl, fun x hx => Function.update_of_ne hx _ _, fun x h5 h6 => ?_, ?_, ?_⟩
  · rw [setSpace_tables, setTable_tables, Function.update_of_ne h6, setTable_tables,
      Function.update_of_ne h5]
    rfl
  · rw [setSpace_spaces, Function.update_self]
  · simp only [ownPages, spacePages, setSpace_spaces, Function.update_self]
    rfl

/-! ## Sharing -/

/-- The space has tables of its own and is in its group in name only. -/
def Strayed (m : Mmu H) (p : ℕ) : Prop :=
  (m.spaces p).cow ≠ 0 ∧ (m.spaces p).ptCode ≠ (m.groups (m.spaces p).cow).ptCode

instance (m : Mmu H) (p : ℕ) : Decidable (Strayed m p) := inferInstanceAs (Decidable (_ ∧ _))

/-- The heap after a space that has strayed left its group, whose pages come back when it was the
last one in it. -/
def leaveHeap (m : Mmu H) (p : ℕ) (h : H) : H :=
  if Strayed m p then (groupPages m (m.spaces p).cow).foldl free h else h

/-- A page for a new group is needed when the parent is in none. -/
def groupNeed (m : Mmu H) (p : ℕ) : ℕ := if (m.spaces p).cow = 0 ∨ Strayed m p then 1 else 0

theorem leaveGroup_of_strayed (h : Strayed m p) :
    m.leaveGroup p = (m.dropGroup (m.spaces p).cow).setCow p 0 := if_pos h

theorem leaveGroup_of_not_strayed (h : ¬Strayed m p) : m.leaveGroup p = m := if_neg h

theorem leaveGroup_heap (m : Mmu H) (p : ℕ) : (m.leaveGroup p).heap = leaveHeap m p m.heap := by
  by_cases h : Strayed m p
  · rw [leaveGroup_of_strayed h, leaveHeap, if_pos h, dropGroup_eq]
    rfl
  · rw [leaveGroup_of_not_strayed h, leaveHeap, if_neg h]

/-- Only the group of the space itself can change. -/
theorem leaveGroup_spaces (hc : c ≠ p) : (m.leaveGroup p).spaces c = m.spaces c := by
  by_cases h : Strayed m p
  · rw [leaveGroup_of_strayed h, dropGroup_eq]
    exact Function.update_of_ne hc _ _
  · rw [leaveGroup_of_not_strayed h]

theorem leaveGroup_cow (m : Mmu H) (p : ℕ) :
    ((m.leaveGroup p).spaces p).cow = 0 ↔ (m.spaces p).cow = 0 ∨ Strayed m p := by
  by_cases h : Strayed m p
  · rw [leaveGroup_of_strayed h, setCow, setSpace_spaces, Function.update_self]
    exact iff_of_true rfl (Or.inr h)
  · rw [leaveGroup_of_not_strayed h, or_iff_left h]

theorem enterGroup_spec (m : Mmu H) (p : ℕ) (hc : c ≠ p) :
    ((m.enterGroup p).1 = 0 ↔ (m.spaces p).cow = 0 ∧ (allocN m.heap 1).1 = 0) ∧
      (m.enterGroup p).2.spaces c = m.spaces c ∧
      (m.enterGroup p).2.heap =
        takePages m.heap (if (m.spaces p).cow = 0 then 1 else 0) := by
  by_cases h : (m.spaces p).cow = 0
  · have hk : m.kframeAlloc = ((allocN m.heap 1).1, m.setHeap (allocN m.heap 1).2) := rfl
    rw [enterGroup, if_neg (not_not.mpr h), hk, if_pos h, and_iff_right h]
    dsimp only
    by_cases h0 : (allocN m.heap 1).1 = 0
    · rw [if_pos h0]
      exact ⟨iff_of_true rfl h0, rfl, rfl⟩
    · rw [if_neg h0]
      exact ⟨Iff.rfl, Function.update_of_ne hc _ _, rfl⟩
  · rw [enterGroup, if_pos h, if_neg h]
    exact ⟨by simp [h], rfl, rfl⟩

theorem attach_heap (m : Mmu H) (c g : ℕ) : (m.attach c g).heap =
    free (free m.heap (m.spaces c).ptCode) (m.spaces c).ptHeap := rfl

omit [PageAlloc H] in
theorem pt_ne_zero_guard (hc : c ≠ 0) (hp : p ≠ 0) (hne : c ≠ p)
    (hpt : ∀ h, (m.spaces p).pt h ≠ 0) :
    ¬(c = 0 ∨ p = 0 ∨ c = p ∨ (m.spaces p).ptCode = 0 ∨ (m.spaces p).ptHeap = 0) := by
  have := hpt .code
  have := hpt .heap
  simp only [Space.pt] at *
  tauto

/-- **Sharing** takes a page for a group at most, and gives the tables of the child back. -/
theorem spaceShareUser_spec (hc : c ≠ 0) (hp : p ≠ 0) (hne : c ≠ p)
    (hpt : ∀ h, (m.spaces p).pt h ≠ 0) :
    ((m.spaceShareUser c p).1 = true ↔ HasPages (leaveHeap m p m.heap) (groupNeed m p)) ∧
      ((m.spaceShareUser c p).1 = true → (m.spaceShareUser c p).2.heap =
        free (free (takePages (leaveHeap m p m.heap) (groupNeed m p)) (m.spaces c).ptCode)
          (m.spaces c).ptHeap) := by
  obtain ⟨hfail, hspaces, hheap⟩ := enterGroup_spec (m.leaveGroup p) p hne
  rw [leaveGroup_heap] at hfail hheap
  rw [leaveGroup_cow] at hfail
  rw [leaveGroup_spaces hne] at hspaces
  simp only [leaveGroup_cow] at hheap
  have hgroup : HasPages (leaveHeap m p m.heap) (groupNeed m p) ↔
      ¬((m.leaveGroup p).enterGroup p).1 = 0 := by
    rw [hfail, groupNeed]
    split
    · next h => simp only [HasPages, h, ne_eq, and_true, true_and]
    · next h => simp only [HasPages, h, false_and, not_false_eq_true]
  rw [spaceShareUser, if_neg (pt_ne_zero_guard hc hp hne hpt)]
  dsimp only
  split
  · next hg => exact ⟨by simp [hgroup, hg], fun h => by cases h⟩
  · next hg =>
    refine ⟨by simp [hgroup, hg], fun _ => ?_⟩
    have hc' : ∀ m' : Mmu H, ((m'.protect ((m.leaveGroup p).enterGroup p).1).linkTables p).spaces c
        = m'.spaces c := fun _ => Function.update_of_ne hne _ _
    simp only [attach_heap, hc', hspaces]
    rw [groupNeed, ← hheap]
    rfl

/-- A group is the one that the parent names. -/
theorem enterGroup_cow (h : (m.enterGroup p).1 ≠ 0) :
    ((m.enterGroup p).2.spaces p).cow = (m.enterGroup p).1 := by
  rw [enterGroup] at h ⊢
  split
  · rfl
  · next h0 =>
    rw [if_neg h0] at h
    dsimp only at h ⊢
    split
    · next hg =>
      rw [if_pos hg] at h
      exact absurd rfl h
    · rw [setCow, setSpace_spaces, Function.update_self]

theorem enterGroup_of_cow (h : (m.spaces p).cow ≠ 0) :
    m.enterGroup p = ((m.spaces p).cow, m) := if_pos h

/-- A parent without a group, and no page for one. -/
theorem enterGroup_fail (hf : m.enterGroup p = (0, m')) : (m.spaces p).cow = 0 ∧
    (allocN m.heap 1).1 = 0 ∧ m' = m.setHeap (allocN m.heap 1).2 := by
  have hk : m.kframeAlloc = ((allocN m.heap 1).1, m.setHeap (allocN m.heap 1).2) := rfl
  by_cases h : (m.spaces p).cow = 0
  · rw [enterGroup, if_neg (not_not.mpr h), hk] at hf
    dsimp only at hf
    split at hf
    · next h0 => exact ⟨h, h0, (Prod.mk.inj hf).2.symm⟩
    · next h0 => exact absurd (Prod.mk.inj hf).1 h0
  · rw [enterGroup_of_cow h] at hf
    exact absurd (Prod.mk.inj hf).1 h

/-- A new group starts with its parent. -/
theorem enterGroup_new (h : (m.spaces p).cow = 0) (h0 : (allocN m.heap 1).1 ≠ 0) :
    (m.enterGroup p).1 = (allocN m.heap 1).1 ∧
      ((m.enterGroup p).2.groups (allocN m.heap 1).1).refs = 1 := by
  have hk : m.kframeAlloc = ((allocN m.heap 1).1, m.setHeap (allocN m.heap 1).2) := rfl
  rw [enterGroup, if_neg (not_not.mpr h), hk]
  dsimp only
  rw [if_neg h0]
  refine ⟨rfl, ?_⟩
  rw [setCow, setSpace_groups, setGroup_groups, Function.update_self]

theorem leaveGroup_boot (m : Mmu H) (p : ℕ) : (m.leaveGroup p).boot = m.boot := by
  by_cases h : Strayed m p
  · rw [leaveGroup_of_strayed h, dropGroup_eq]
    rfl
  · rw [leaveGroup_of_not_strayed h]

theorem enterGroup_boot (m : Mmu H) (p : ℕ) : (m.enterGroup p).2.boot = m.boot := by
  rw [enterGroup]
  split
  · rfl
  · dsimp only
    split <;> rfl

theorem spaceShareUser_boot (m : Mmu H) (c p : ℕ) : (m.spaceShareUser c p).2.boot = m.boot := by
  have h := (enterGroup_boot (m.leaveGroup p) p).trans (leaveGroup_boot m p)
  rw [spaceShareUser]
  split
  · rfl
  rcases he : (m.leaveGroup p).enterGroup p with ⟨g, m₁⟩
  rw [he] at h
  dsimp only
  split
  · exact h
  · exact h

theorem attach_spaces_of_ne {x g : ℕ} (h : x ≠ c) : (m.attach c g).spaces x = m.spaces x := by
  simp only [attach, linkTables, setGroup_spaces, setSpace_spaces, Function.update_idem]
  exact Function.update_of_ne h _ _

/-- Sharing that fails stops at the group. -/
theorem spaceShareUser_fail (hc : c ≠ 0) (hp : p ≠ 0) (hne : c ≠ p)
    (hpt : ∀ h, (m.spaces p).pt h ≠ 0) (hf : m.spaceShareUser c p = (false, m')) :
    (m.leaveGroup p).enterGroup p = (0, m') := by
  rw [spaceShareUser, if_neg (pt_ne_zero_guard hc hp hne hpt)] at hf
  rcases he : (m.leaveGroup p).enterGroup p with ⟨g, m₁⟩
  rw [he] at hf
  dsimp only at hf
  split at hf
  · next hg => rw [hg, (Prod.mk.inj hf).2]
  · cases hf

/-- Sharing that succeeds: the parent names the group, and the group counts one more. -/
theorem spaceShareUser_done (hc : c ≠ 0) (hp : p ≠ 0) (hne : c ≠ p)
    (hpt : ∀ h, (m.spaces p).pt h ≠ 0) (hf : m.spaceShareUser c p = (true, m')) :
    ∃ g m₁, (m.leaveGroup p).enterGroup p = (g, m₁) ∧ g ≠ 0 ∧ (m'.spaces p).cow = g ∧
      (m'.groups g).refs = (m₁.groups g).refs + 1 := by
  rw [spaceShareUser, if_neg (pt_ne_zero_guard hc hp hne hpt)] at hf
  rcases he : (m.leaveGroup p).enterGroup p with ⟨g, m₁⟩
  rw [he] at hf
  dsimp only at hf
  split at hf
  · cases hf
  · next hg =>
    obtain rfl := (Prod.mk.inj hf).2
    refine ⟨g, m₁, rfl, hg, ?_, ?_⟩
    · have hcow := enterGroup_cow (m := m.leaveGroup p) (p := p) (by rw [he]; exact hg)
      rw [he] at hcow
      rw [attach_spaces_of_ne hne.symm, linkTables, setSpace_spaces, Function.update_self]
      exact hcow
    · rw [attach, setGroup_groups, Function.update_self]
      rfl

omit [PageAlloc H] in
theorem groupPages_congr (h : m'.groups = m.groups) (g : ℕ) :
    groupPages m' g = groupPages m g := by
  rw [groupPages, groupPages, h]

omit [PageAlloc H] in
/-- Making the child's space changes nothing the parent's group depends on. -/
theorem strayed_congr (hs : m'.spaces p = m.spaces p) (hg : m'.groups = m.groups) :
    Strayed m' p ↔ Strayed m p := by
  rw [Strayed, Strayed, hs, hg]

theorem leaveHeap_congr (hs : m'.spaces p = m.spaces p) (hg : m'.groups = m.groups)
    (h : H) : leaveHeap m' p h = leaveHeap m p h := by
  simp only [leaveHeap, strayed_congr hs hg, hs, groupPages_congr hg]

omit [PageAlloc H] in
theorem groupNeed_congr (hs : m'.spaces p = m.spaces p) (hg : m'.groups = m.groups) :
    groupNeed m' p = groupNeed m p := by
  simp only [groupNeed, strayed_congr hs hg, hs]

/-! ## The end of a space -/

/-- Destroying a space that is in no group gives back its seven pages. -/
theorem spaceDestroy_keep {m : Mmu H} {s : ℕ} (hc : (m.spaces s).cow = 0)
    (hg : Grew h₀ m.heap (ownPages m s ++ spacePages m s)) :
    Grew h₀ (m.spaceDestroy s).heap [] ∨ (m.spaceDestroy s) = m := by
  by_cases h : s = 0 ∨ s = m.boot
  · exact Or.inr (by rw [Mmu.spaceDestroy, if_pos h])
  · obtain ⟨h0, hb⟩ := not_or.mp h
    obtain ⟨m', hm, hheap, -⟩ := spaceDestroy_eq m h0 hb
    rw [hc, if_pos (Or.inl rfl), if_pos rfl, List.nil_append] at hheap
    rw [hm, hheap]
    rw [← List.append_nil (ownPages m s ++ spacePages m s)] at hg
    exact Or.inl hg.freeAll

theorem spaceDestroy_current (m : Mmu H) (s : ℕ) : (m.spaceDestroy s).current = m.current := by
  by_cases h : s = 0 ∨ s = m.boot
  · rw [Mmu.spaceDestroy, if_pos h]
  · obtain ⟨h0, hb⟩ := not_or.mp h
    obtain ⟨m', hm, -, -, -, -, -, hcur, -⟩ := spaceDestroy_eq m h0 hb
    rw [hm, hcur]

end Paging.Mmu

end Aurisys
