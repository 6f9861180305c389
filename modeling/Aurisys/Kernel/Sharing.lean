import Aurisys.Kernel.Paging
import Mathlib.Data.Fintype.Basic
import Mathlib.Tactic.FinCases

/-!
# Who holds which page

Every page that a space, a group or a table lives in is held from exactly one place. The kinds of
the typing name that place, so a proof that two addresses differ is a proof that two kinds differ.

A space is *attached* when its tables are those of its group. Otherwise the tables are its own, and
if it still names a group then only because `space_share_user` has not noticed yet.

Every operation is seen the same way: take the space out of the set the invariant talks about,
change it and the heap, and put it back.

## Main definitions

* `Kind` — what a page of the heap holds, and for whom
* `Wf` — the invariant
* `Shown` — the two states show the same entries

## Main results

* `Wf.spaceCreate`, `Wf.spaceDestroy`, `Wf.spaceShareUser`, `Wf.spaceCowFault`
-/

namespace Aurisys

open Pages

namespace Paging

/-- What is kept at an address of the heap. -/
inductive Kind (D : Type) where
  | space
  /-- The page directory `i` of the space at `s`. -/
  | pd (s : ℕ) (i : Fin 4)
  /-- A table of the space at `s` alone. -/
  | own (s : ℕ) (h : Half)
  | group
  /-- A table of the group at `g`. -/
  | shared (g : ℕ) (h : Half)
  /-- Everything else. -/
  | data (d : D)

/-- The size of an object; `sz` is the size of the other data. -/
def Kind.bytes {D : Type} (sz : D → ℕ) : Kind D → ℕ
  | .data d => sz d
  | _ => 4096

variable {H : Type} [PageAlloc H] {D : Type} {sz : D → ℕ} {m m' : Mmu H}
  {ty ty' : ℕ → Option (Kind D)} {S : Finset ℕ} {s g p : ℕ}

/-- The space uses the tables of its group. -/
def Attached (m : Mmu H) (s : ℕ) : Prop :=
  (m.spaces s).cow ≠ 0 ∧ ∀ h, (m.spaces s).pt h = (m.groups (m.spaces s).cow).pt h

/-- The spaces of `S` that name the group at `g`. -/
def members (m : Mmu H) (S : Finset ℕ) (g : ℕ) : Finset ℕ := S.filter fun s => (m.spaces s).cow = g

/-- The spaces `S`, their groups and their tables are in order. -/
structure Wf (sz : D → ℕ) (m : Mmu H) (ty : ℕ → Option (Kind D)) (S : Finset ℕ) : Prop where
  /-- What is out is what the typing says. -/
  typed : Typed (Kind.bytes sz) m.heap ty
  /-- A space is out, as a space. -/
  space : ∀ s ∈ S, ty s = some .space
  /-- So is each page of its directory, -/
  pd : ∀ s ∈ S, ∀ i, ty ((m.spaces s).pd i) = some (.pd s i)
  /-- which leads to the tables that the space names. -/
  link : ∀ s ∈ S, ∀ h, (m.spaces s).link h = (m.spaces s).pt h
  /-- They are those of its group, or its own. -/
  table : ∀ s ∈ S, Attached m s ∨ ∀ h, ty ((m.spaces s).pt h) = some (.own s h)
  /-- A group that is named is out, -/
  cow : ∀ s ∈ S, (m.spaces s).cow ≠ 0 → ty (m.spaces s).cow = some .group
  /-- and so are its tables. -/
  shared : ∀ g, ty g = some .group → ∀ h, ty ((m.groups g).pt h) = some (.shared g h)
  /-- It counts all of its members. -/
  refs : ∀ g, ty g = some .group → (members m S g).card ≤ (m.groups g).refs

/-- The tables of the groups are read only. -/
def Ro (m : Mmu H) (ty : ℕ → Option (Kind D)) (g : ℕ) : Prop :=
  ty g = some .group → ∀ h i, (m.tables ((m.groups g).pt h) i).present = true →
    (m.tables ((m.groups g).pt h) i).rw = false

/-- The entry of a space. -/
def entry (m : Mmu H) (s : ℕ) (h : Half) (i : Fin 512) : Pte := m.tables ((m.spaces s).pt h) i

/-- The typings agree on the data. -/
def SameData (ty ty' : ℕ → Option (Kind D)) : Prop :=
  ∀ p d, ty' p = some (.data d) ↔ ty p = some (.data d)

theorem SameData.trans {ty'' : ℕ → Option (Kind D)} (h : SameData ty ty')
    (h' : SameData ty' ty'') : SameData ty ty'' :=
  fun p d => (h' p d).trans (h p d)

/-! ## Reading the invariant -/

theorem Wf.table_of_attached (hw : Wf sz m ty S) (hs : s ∈ S) (ha : Attached m s) (h : Half) :
    ty ((m.spaces s).pt h) = some (.shared (m.spaces s).cow h) := by
  rw [ha.2 h]
  exact hw.shared _ (hw.cow s hs ha.1) h

/-- Every table in use is typed, for its half. -/
theorem Wf.exists_table (hw : Wf sz m ty S) (hs : s ∈ S) (h : Half) :
    ∃ k, ty ((m.spaces s).pt h) = some k ∧ (k = .own s h ∨ k = .shared (m.spaces s).cow h) := by
  rcases hw.table s hs with ha | ho
  · exact ⟨_, hw.table_of_attached hs ha h, Or.inr rfl⟩
  · exact ⟨_, ho h, Or.inl rfl⟩

theorem Wf.not_attached (hw : Wf sz m ty S) (hs : s ∈ S) {h : Half}
    (ho : ty ((m.spaces s).pt h) = some (.own s h)) : ¬Attached m s := by
  intro ha
  rw [hw.table_of_attached hs ha h] at ho
  cases ho

/-- `pt_code` alone decides whether a space is attached. -/
theorem Wf.attached_iff (hw : Wf sz m ty S) (hs : s ∈ S) (hc : (m.spaces s).cow ≠ 0) :
    Attached m s ↔ (m.spaces s).ptCode = (m.groups (m.spaces s).cow).ptCode := by
  constructor
  · exact fun ha => ha.2 .code
  · intro he
    refine (hw.table s hs).resolve_right fun ho => ?_
    have h1 := ho .code
    have h2 := hw.shared _ (hw.cow s hs hc) .code
    change ty (m.spaces s).ptCode = _ at h1
    change ty (m.groups (m.spaces s).cow).ptCode = _ at h2
    rw [he, h2] at h1
    cases h1

theorem Wf.ne_zero (hw : Wf sz m ty S) (hs : s ∈ S) : s ≠ 0 :=
  hw.typed.ne_zero (hw.space s hs)

theorem Wf.pt_ne_zero (hw : Wf sz m ty S) (hs : s ∈ S) (h : Half) : (m.spaces s).pt h ≠ 0 := by
  obtain ⟨k, hk, -⟩ := hw.exists_table hs h
  exact hw.typed.ne_zero hk

/-- Two spaces meet in a table only when both are attached to one group. -/
theorem Wf.table_eq (hw : Wf sz m ty S) {s s' : ℕ} (hs : s ∈ S) (hs' : s' ∈ S) {h h' : Half}
    (he : (m.spaces s).pt h = (m.spaces s').pt h') :
    h = h' ∧ (s = s' ∨ Attached m s ∧ Attached m s' ∧ (m.spaces s).cow = (m.spaces s').cow) := by
  rcases hw.table s hs with ha | ho <;> rcases hw.table s' hs' with ha' | ho'
  · have h1 := hw.table_of_attached hs ha h
    have h2 := hw.table_of_attached hs' ha' h'
    rw [he, h2] at h1
    obtain ⟨hcow, hh⟩ := Kind.shared.inj (Option.some.inj h1)
    exact ⟨hh.symm, Or.inr ⟨ha, ha', hcow.symm⟩⟩
  · have h1 := hw.table_of_attached hs ha h
    rw [he, ho' h'] at h1
    cases h1
  · have h1 := ho h
    rw [he, hw.table_of_attached hs' ha' h'] at h1
    cases h1
  · have h1 := ho h
    rw [he, ho' h'] at h1
    cases h1
    exact ⟨rfl, Or.inl rfl⟩

/-! ## Out of the set and back -/

/-- The invariant talks about fewer spaces. -/
theorem Wf.subset (hw : Wf sz m ty S) {S' : Finset ℕ} (hS : S' ⊆ S) : Wf sz m ty S' :=
  ⟨hw.typed, fun s hs => hw.space s (hS hs), fun s hs => hw.pd s (hS hs),
    fun s hs => hw.link s (hS hs), fun s hs => hw.table s (hS hs), fun s hs => hw.cow s (hS hs),
    hw.shared, fun g hg =>
      (Finset.card_le_card (Finset.filter_subset_filter _ hS)).trans (hw.refs g hg)⟩

omit [PageAlloc H] in
theorem members_insert (hs : s ∉ S) (g : ℕ) :
    (members m (insert s S) g).card
      = (members m S g).card + if (m.spaces s).cow = g then 1 else 0 := by
  rw [members, Finset.filter_insert]
  split
  · rw [Finset.card_insert_of_notMem fun h => hs (Finset.mem_filter.mp h).1, members]
  · rfl

omit [PageAlloc H] in
theorem members_erase (hs : s ∈ S) (g : ℕ) :
    (members m (S.erase s) g).card + (if (m.spaces s).cow = g then 1 else 0)
      = (members m S g).card := by
  rw [← members_insert (Finset.notMem_erase s S), Finset.insert_erase hs]

/-- A space that is in order by itself joins the others. -/
theorem Wf.insert (hw : Wf sz m ty S) (hs : s ∉ S) (hspace : ty s = some .space)
    (hpd : ∀ i, ty ((m.spaces s).pd i) = some (.pd s i))
    (hlink : ∀ h, (m.spaces s).link h = (m.spaces s).pt h)
    (htable : Attached m s ∨ ∀ h, ty ((m.spaces s).pt h) = some (.own s h))
    (hcow : (m.spaces s).cow ≠ 0 → ty (m.spaces s).cow = some .group ∧
      (members m S (m.spaces s).cow).card + 1 ≤ (m.groups (m.spaces s).cow).refs) :
    Wf sz m ty (insert s S) := by
  have split : ∀ {P : ℕ → Prop}, P s → (∀ x ∈ S, P x) → ∀ x ∈ Insert.insert s S, P x := by
    intro P h1 h2 x hx
    rcases Finset.mem_insert.mp hx with rfl | hx
    · exact h1
    · exact h2 x hx
  refine ⟨hw.typed, split hspace hw.space, split hpd hw.pd, split hlink hw.link,
    split htable hw.table, split (fun h => (hcow h).1) hw.cow, hw.shared, fun g hg => ?_⟩
  rw [members_insert hs]
  split
  · next he =>
    subst he
    exact (hcow (hw.typed.ne_zero hg)).2
  · exact hw.refs g hg

/-- What happens to other pages leaves the spaces of `S` in order. -/
theorem Wf.transfer (hw : Wf sz m ty S) (htyped : Typed (Kind.bytes sz) m'.heap ty')
    (hspaces : ∀ s ∈ S, m'.spaces s = m.spaces s)
    (hspace : ∀ s ∈ S, ty' s = some .space)
    (hpd : ∀ s ∈ S, ∀ p i, ty p = some (.pd s i) → ty' p = some (.pd s i))
    (hown : ∀ s ∈ S, ∀ p h, ty p = some (.own s h) → ty' p = some (.own s h))
    (hcow : ∀ s ∈ S, (m.spaces s).cow ≠ 0 → ty' (m.spaces s).cow = some .group ∧
      ∀ h, (m'.groups (m.spaces s).cow).pt h = (m.groups (m.spaces s).cow).pt h)
    (hshared : ∀ g, ty' g = some .group → ∀ h, ty' ((m'.groups g).pt h) = some (.shared g h))
    (hrefs : ∀ g, ty' g = some .group → (members m S g).card ≤ (m'.groups g).refs) :
    Wf sz m' ty' S := by
  refine ⟨htyped, hspace, fun s hs i => ?_, fun s hs h => ?_, fun s hs => ?_,
    fun s hs hc => ?_, hshared, fun g hg => ?_⟩
  · rw [hspaces s hs]
    exact hpd s hs _ i (hw.pd s hs i)
  · rw [hspaces s hs]
    exact hw.link s hs h
  · rw [Attached, hspaces s hs]
    rcases hw.table s hs with ⟨hc, ha⟩ | ho
    · exact Or.inl ⟨hc, fun h => (ha h).trans ((hcow s hs hc).2 h).symm⟩
    · exact Or.inr fun h => hown s hs _ h (ho h)
  · rw [hspaces s hs] at hc ⊢
    exact (hcow s hs hc).1
  · have hm : members m' S g = members m S g :=
      Finset.filter_congr fun s hs => by rw [hspaces s hs]
    rw [hm]
    exact hrefs g hg

/-- What `Wf` and the entries of the spaces of `T` depend on is as before. -/
structure Shown (m m' : Mmu H) (ty ty' : ℕ → Option (Kind D)) (T : Finset ℕ) : Prop where
  /-- The spaces are as they were, -/
  spaces : ∀ x ∈ T, m'.spaces x = m.spaces x
  /-- and so is what they map. -/
  entries : ∀ x ∈ T, ∀ h i, entry m' x h i = entry m x h i
  /-- What a group has is still read only. -/
  ro : (∀ g, Ro m ty g) → ∀ g, Ro m' ty' g
  /-- The pages with data are the same, -/
  data : SameData ty ty'
  /-- and have the same bytes. -/
  mem : m'.mem = m.mem

omit [PageAlloc H] in
theorem Shown.trans {m₁ : Mmu H} {ty₁ : ℕ → Option (Kind D)} {T : Finset ℕ}
    (h : Shown m m' ty ty' T)
    (h' : Shown m' m₁ ty' ty₁ T) : Shown m m₁ ty ty₁ T :=
  ⟨fun x hx => (h'.spaces x hx).trans (h.spaces x hx), fun x hx i j => (h'.entries x hx i j).trans
    (h.entries x hx i j),
    fun hr => h'.ro (h.ro hr), h.data.trans h'.data, h'.mem.trans h.mem⟩

omit [PageAlloc H] in
theorem Shown.mono {T U : Finset ℕ} (h : Shown m m' ty ty' T) (hU : U ⊆ T) : Shown m m' ty ty' U :=
  ⟨fun x hx => h.spaces x (hU hx), fun x hx => h.entries x (hU hx), h.ro, h.data, h.mem⟩

theorem Wf.setHeap {h : H} (hw : Wf sz m ty S) (ht : Typed (Kind.bytes sz) h ty) :
    Wf sz (m.setHeap h) ty S :=
  ⟨ht, hw.space, hw.pd, hw.link, hw.table, hw.cow, hw.shared, hw.refs⟩

/-! ## Giving pages back -/

/-- The address `p` of kind `k` belongs to the space at `s`, or to its group when that dies. -/
def Out (s g : ℕ) (dies : Prop) (p : ℕ) (k : Kind D) : Prop :=
  p = s ∨ (∃ i, k = .pd s i) ∨ (∃ h, k = .own s h) ∨ dies ∧ (p = g ∨ ∃ h, k = .shared g h)

/-- Which kinds do not. -/
theorem not_out {dies : Prop} {k : Kind D} (hk : ty p = some k) (hspace : ty s = some .space)
    (hgroup : dies → ty g = some .group) (hs : k = .space → p ≠ s) (hpd : ∀ i, k ≠ .pd s i)
    (hown : ∀ h, k ≠ .own s h)
    (hg : dies → k = .group → p ≠ g) (hshared : dies → ∀ h, k ≠ .shared g h) :
    ¬Out s g dies p k := by
  rintro (rfl | ⟨i, hi⟩ | ⟨h, hh⟩ | ⟨hd, rfl | ⟨h, hh⟩⟩)
  · exact hs (Option.some.inj (hk.symm.trans hspace)) rfl
  · exact hpd i hi
  · exact hown h hh
  · exact hg hd (Option.some.inj (hk.symm.trans (hgroup hd))) rfl
  · exact hshared hd h hh

/-- A page of a group that goes is one of the group that dies. -/
theorem Out.of_group {dies : Prop} {k : Kind D} (h : Out s g dies p k) (hk : ty p = some k)
    (hspace : ty s = some .space) (hkind : k = .group ∨ ∃ g' h', k = .shared g' h') :
    dies ∧ (p = g ∨ ∃ h, k = .shared g h) := by
  have hother : ∀ {k' : Kind D}, k = k' → k' ≠ .group → (∀ g' h', k' ≠ .shared g' h') → False := by
    rintro k' rfl hgroup hshared
    rcases hkind with hk' | ⟨g', h', hk'⟩
    · exact hgroup hk'
    · exact hshared g' h' hk'
  rcases h with rfl | ⟨i, hi⟩ | ⟨h, hh⟩ | hout
  · exact (hother (Option.some.inj (hk.symm.trans hspace)) nofun nofun).elim
  · exact (hother hi nofun nofun).elim
  · exact (hother hh nofun nofun).elim
  · exact hout

/-- **A space goes**, or leaves its group: the rest stays in order when only pages of the space are
given back, and those of its group when it was the last one there. -/
theorem Wf.release (hw : Wf sz m ty S) (m' : Mmu H) (dies : Prop) (hs : s ∈ S)
    {R : List ℕ} (hnd : R.Nodup)
    (hR : ∀ p ∈ R, ∃ k, ty p = some k ∧ Out s (m.spaces s).cow dies p k)
    (hdies : dies → (m.spaces s).cow ≠ 0 ∧ (m.spaces s).cow ∈ R ∧
      (m.groups (m.spaces s).cow).refs ≤ 1)
    (hheap : m'.heap = R.foldl PageAlloc.free m.heap)
    (hspaces : ∀ x ∈ S.erase s, m'.spaces x = m.spaces x)
    (hpt : ∀ g h, (m'.groups g).pt h = (m.groups g).pt h)
    (hrefs : ∀ g, (m.groups g).refs ≤ (m'.groups g).refs + if (m.spaces s).cow = g then 1 else 0) :
    Wf sz m' (without R ty) (S.erase s) ∧ SameData ty (without R ty) := by
  have hspace := hw.space s hs
  have hgroup : dies → ty (m.spaces s).cow = some .group := fun hd => hw.cow s hs (hdies hd).1
  -- an address stays when its kind is not one of those that go
  have stay : ∀ p k, ty p = some k → ¬Out s (m.spaces s).cow dies p k →
      without R ty p = some k := fun p k hk hout => without_eq_some.mpr ⟨fun hp => by
    obtain ⟨k', hk', hout'⟩ := hR p hp
    obtain rfl : k = k' := Option.some.inj (hk.symm.trans hk')
    exact hout hout', hk⟩
  have htyped : Typed (Kind.bytes sz) m'.heap (without R ty) := by
    rw [hheap]
    exact hw.typed.freeAll hnd fun p hp => (hR p hp).imp fun k hk => hk.1
  refine ⟨(hw.subset (Finset.erase_subset s S)).transfer htyped hspaces ?_ ?_ ?_ ?_ ?_ ?_, ?_⟩
  · intro x hx
    obtain ⟨hne, hx⟩ := Finset.mem_erase.mp hx
    exact stay x _ (hw.space x hx) (not_out (hw.space x hx) hspace hgroup (fun _ => hne)
      nofun nofun nofun nofun)
  · intro x hx p i hp
    have hpd : ∀ j, Kind.pd (D := D) x i ≠ .pd s j :=
      fun j hj => Finset.ne_of_mem_erase hx (Kind.pd.inj hj).1
    exact stay p _ hp (not_out hp hspace hgroup nofun hpd nofun nofun nofun)
  · intro x hx p h hp
    have hown : ∀ h', Kind.own (D := D) x h ≠ .own s h' :=
      fun h' hj => Finset.ne_of_mem_erase hx (Kind.own.inj hj).1
    exact stay p _ hp (not_out hp hspace hgroup nofun nofun hown nofun nofun)
  · intro x hx hc
    have hcow := hw.cow x (Finset.mem_of_mem_erase hx) hc
    refine ⟨stay _ _ hcow (not_out hcow hspace hgroup nofun nofun nofun (fun hd _ hg => ?_) nofun),
      fun h => hpt _ h⟩
    -- two members need two references
    have h1 := hw.refs _ (hgroup hd)
    have h2 := members_erase (m := m) hs (m.spaces s).cow
    have h3 : 0 < (members m (S.erase s) (m.spaces s).cow).card :=
      Finset.card_pos.mpr ⟨x, Finset.mem_filter.mpr ⟨hx, hg⟩⟩
    have h4 := (hdies hd).2.2
    simp only [if_true] at h2
    omega
  · intro g hg h
    obtain ⟨hgR, hg⟩ := without_eq_some.mp hg
    have hshared := hw.shared g hg h
    rw [hpt]
    exact stay _ _ hshared (not_out hshared hspace hgroup nofun nofun nofun nofun fun hd h' hh =>
      hgR ((Kind.shared.inj hh).1 ▸ (hdies hd).2.1))
  · intro g hg
    obtain ⟨-, hg⟩ := without_eq_some.mp hg
    have h1 := hw.refs g hg
    have h2 := members_erase (m := m) hs g
    have h3 := hrefs g
    omega
  · exact fun p d => ⟨fun hp => (without_eq_some.mp hp).2, fun hp =>
      stay p _ hp (not_out hp hspace hgroup nofun nofun nofun nofun nofun)⟩

/-- The pages of the group of `s`, when `s` is the last one to name it. -/
def groupPages (m : Mmu H) (g : ℕ) : List ℕ :=
  if (m.groups g).refs - 1 = 0 then [(m.groups g).ptCode, (m.groups g).ptHeap, g] else []

def ownPages (m : Mmu H) (s : ℕ) : List ℕ := [(m.spaces s).ptCode, (m.spaces s).ptHeap]

theorem dropGroup_eq (m : Mmu H) (g : ℕ) : m.dropGroup g =
    (m.setGroup g { m.groups g with refs := (m.groups g).refs - 1 }).setHeap
      ((groupPages m g).foldl PageAlloc.free m.heap) := by
  simp only [Mmu.dropGroup, Mmu.setGroup_groups, Function.update_self, groupPages]
  split <;> rfl

theorem groups_dropGroup (m : Mmu H) (g : ℕ) : (m.dropGroup g).groups =
    Function.update m.groups g { m.groups g with refs := (m.groups g).refs - 1 } := by
  rw [dropGroup_eq]
  rfl

theorem pt_dropGroup (m : Mmu H) (g g' : ℕ) (h : Half) :
    ((m.dropGroup g).groups g').pt h = (m.groups g').pt h := by
  rw [groups_dropGroup]
  by_cases hg : g' = g
  · subst hg
    rw [Function.update_self]
    cases h <;> rfl
  · rw [Function.update_of_ne hg]

theorem refs_dropGroup (m : Mmu H) (g g' : ℕ) :
    (m.groups g').refs ≤ ((m.dropGroup g).groups g').refs + if g = g' then 1 else 0 := by
  rw [groups_dropGroup]
  by_cases hg : g = g'
  · subst hg
    rw [Function.update_self, if_pos rfl]
    exact Nat.le_add_of_sub_le (Nat.le_refl _)
  · rw [Function.update_of_ne (Ne.symm hg)]
    exact Nat.le_add_right _ _

theorem Wf.groupPages_spec (hw : Wf sz m ty S) (hs : s ∈ S) (hc : (m.spaces s).cow ≠ 0) :
    (groupPages m (m.spaces s).cow).Nodup ∧
      (∀ p ∈ groupPages m (m.spaces s).cow, ∃ k, ty p = some k ∧
        (k = .group ∨ ∃ h, k = .shared (m.spaces s).cow h) ∧
        Out s (m.spaces s).cow ((m.groups (m.spaces s).cow).refs - 1 = 0) p k) ∧
      ((m.groups (m.spaces s).cow).refs - 1 = 0 →
        (m.spaces s).cow ∈ groupPages m (m.spaces s).cow) := by
  set g := (m.spaces s).cow
  have hg : ty g = some .group := hw.cow s hs hc
  have h1 : ty (m.groups g).ptCode = some (.shared g .code) := hw.shared g hg .code
  have h2 : ty (m.groups g).ptHeap = some (.shared g .heap) := hw.shared g hg .heap
  rw [groupPages]
  split
  · next hd =>
    refine ⟨List.Nodup.of_map ty ?_, ?_, fun _ => by simp⟩
    · simp [hg, h1, h2]
    · intro p hp
      simp only [List.mem_cons, List.not_mem_nil, or_false] at hp
      rcases hp with rfl | rfl | rfl
      · exact ⟨_, h1, Or.inr ⟨_, rfl⟩, Or.inr (Or.inr (Or.inr ⟨hd, Or.inr ⟨_, rfl⟩⟩))⟩
      · exact ⟨_, h2, Or.inr ⟨_, rfl⟩, Or.inr (Or.inr (Or.inr ⟨hd, Or.inr ⟨_, rfl⟩⟩))⟩
      · exact ⟨_, hg, Or.inl rfl, Or.inr (Or.inr (Or.inr ⟨hd, Or.inl rfl⟩))⟩
  · next hd => exact ⟨List.nodup_nil, by simp, fun h => absurd h hd⟩

/-- **`space_destroy`** gives back the pages of the space, and of its group when it was the last. -/
theorem spaceDestroy_eq (m : Mmu H) {s : ℕ} (h0 : s ≠ 0) (hb : s ≠ m.boot) :
    ∃ m', m.spaceDestroy s = m' ∧
      m'.heap = ((if (m.spaces s).cow = 0 ∨ (m.spaces s).ptCode ≠ (m.groups (m.spaces s).cow).ptCode
          then ownPages m s else []) ++
        ((if (m.spaces s).cow = 0 then [] else groupPages m (m.spaces s).cow) ++
          spacePages m s)).foldl PageAlloc.free m.heap ∧
      (∀ x, x ≠ s → m'.spaces x = m.spaces x) ∧ m'.tables = m.tables ∧ m'.mem = m.mem ∧
      m'.groups = (if (m.spaces s).cow = 0 then m.groups else (m.dropGroup (m.spaces s).cow).groups)
      ∧ m'.current = m.current ∧ m'.boot = m.boot := by
  refine ⟨_, rfl, ?_⟩
  rw [Mmu.spaceDestroy, if_neg (not_or.mpr ⟨h0, hb⟩)]
  by_cases hc : (m.spaces s).cow = 0
  · simp only [hc, ne_eq, not_true_eq_false, if_false, true_or, if_true]
    exact ⟨rfl, fun x hx => Function.update_of_ne hx _ _, rfl, rfl, rfl, rfl, rfl⟩
  · simp only [hc, ne_eq, not_false_eq_true, if_true, false_or, if_false]
    by_cases hp : (m.spaces s).ptCode = (m.groups (m.spaces s).cow).ptCode
    · simp only [hp, not_true_eq_false, if_false, dropGroup_eq]
      refine ⟨?_, fun x hx => Function.update_of_ne hx _ _, rfl, rfl, rfl, rfl, rfl⟩
      rw [List.nil_append, List.foldl_append]
      rfl
    · simp only [hp, not_false_eq_true, if_true, dropGroup_eq]
      refine ⟨?_, fun x hx => Function.update_of_ne hx _ _, rfl, rfl, rfl, rfl, rfl⟩
      rw [List.foldl_append, List.foldl_append]
      rfl

theorem Wf.spacePages_spec (hw : Wf sz m ty S) (hs : s ∈ S) (dies : Prop) :
    (spacePages m s).Nodup ∧ ∀ p ∈ spacePages m s, ∃ k, ty p = some k ∧
      (k = .space ∨ ∃ i, k = .pd s i) ∧ Out s (m.spaces s).cow dies p k := by
  have h0 := hw.pd s hs 0
  have h1 := hw.pd s hs 1
  have h2 := hw.pd s hs 2
  have h3 := hw.pd s hs 3
  have h4 := hw.space s hs
  constructor
  · refine List.Nodup.of_map ty ?_
    simp [spacePages, h0, h1, h2, h3, h4]
  · intro p hp
    simp only [spacePages, List.mem_cons, List.not_mem_nil, or_false] at hp
    rcases hp with rfl | rfl | rfl | rfl | rfl
    · exact ⟨_, h0, Or.inr ⟨_, rfl⟩, Or.inr (Or.inl ⟨_, rfl⟩)⟩
    · exact ⟨_, h1, Or.inr ⟨_, rfl⟩, Or.inr (Or.inl ⟨_, rfl⟩)⟩
    · exact ⟨_, h2, Or.inr ⟨_, rfl⟩, Or.inr (Or.inl ⟨_, rfl⟩)⟩
    · exact ⟨_, h3, Or.inr ⟨_, rfl⟩, Or.inr (Or.inl ⟨_, rfl⟩)⟩
    · exact ⟨_, h4, Or.inl rfl, Or.inl rfl⟩

theorem Wf.ownPages_spec (hw : Wf sz m ty S) (hs : s ∈ S)
    (ho : (m.spaces s).cow = 0 ∨ (m.spaces s).ptCode ≠ (m.groups (m.spaces s).cow).ptCode)
    (dies : Prop) :
    (ownPages m s).Nodup ∧ ∀ p ∈ ownPages m s, ∃ k, ty p = some k ∧ (∃ h, k = .own s h) ∧
      Out s (m.spaces s).cow dies p k := by
  have hown : ∀ h, ty ((m.spaces s).pt h) = some (.own s h) := by
    refine (hw.table s hs).resolve_left fun ha => ?_
    rcases ho with h0 | hne
    · exact ha.1 h0
    · exact hne (ha.2 .code)
  have h1 : ty (m.spaces s).ptCode = some (.own s .code) := hown .code
  have h2 : ty (m.spaces s).ptHeap = some (.own s .heap) := hown .heap
  constructor
  · refine List.Nodup.of_map ty ?_
    simp [ownPages, h1, h2]
  · intro p hp
    simp only [ownPages, List.mem_cons, List.not_mem_nil, or_false] at hp
    rcases hp with rfl | rfl
    · exact ⟨_, h1, ⟨_, rfl⟩, Or.inr (Or.inr (Or.inl ⟨_, rfl⟩))⟩
    · exact ⟨_, h2, ⟨_, rfl⟩, Or.inr (Or.inr (Or.inl ⟨_, rfl⟩))⟩

/-- Lists of addresses of different kinds have no address in common. -/
theorem nodup_append_of_kinds {l l' : List ℕ} {P Q : Kind D → Prop} (h : l.Nodup) (h' : l'.Nodup)
    (hl : ∀ p ∈ l, ∃ k, ty p = some k ∧ P k) (hl' : ∀ p ∈ l', ∃ k, ty p = some k ∧ Q k)
    (hPQ : ∀ k, P k → ¬Q k) : (l ++ l').Nodup := by
  refine h.append h' fun p hp hp' => ?_
  obtain ⟨k, hk, hP⟩ := hl p hp
  obtain ⟨k', hk', hQ⟩ := hl' p hp'
  obtain rfl : k = k' := Option.some.inj (hk.symm.trans hk')
  exact hPQ k hP hQ

omit [PageAlloc H] in
theorem ro_without {R : List ℕ} (htables : m'.tables = m.tables)
    (hpt : ∀ g h, (m'.groups g).pt h = (m.groups g).pt h) (hro : ∀ g, Ro m ty g) (g : ℕ) :
    Ro m' (without R ty) g := by
  intro hg h i
  rw [htables, hpt]
  exact hro g (without_eq_some.mp hg).2 h i

/-- The pages `space_destroy` gives back. -/
def destroyPages (m : Mmu H) (s : ℕ) : List ℕ :=
  (if (m.spaces s).cow = 0 ∨ (m.spaces s).ptCode ≠ (m.groups (m.spaces s).cow).ptCode
    then ownPages m s else []) ++
  ((if (m.spaces s).cow = 0 then [] else groupPages m (m.spaces s).cow) ++ spacePages m s)

/-- The pages given back are pages of the space, and of its group when that dies, each once. -/
theorem Wf.destroyPages_spec (hw : Wf sz m ty S) (hs : s ∈ S) {dies : Prop}
    (hdies : dies ↔ (m.spaces s).cow ≠ 0 ∧ (m.groups (m.spaces s).cow).refs - 1 = 0) :
    (destroyPages m s).Nodup ∧
      (∀ p ∈ destroyPages m s, ∃ k, ty p = some k ∧ Out s (m.spaces s).cow dies p k) ∧
      (dies → (m.spaces s).cow ∈ destroyPages m s) := by
  rw [destroyPages]
  set own := if (m.spaces s).cow = 0 ∨
    (m.spaces s).ptCode ≠ (m.groups (m.spaces s).cow).ptCode then ownPages m s else [] with hown
  set grp := if (m.spaces s).cow = 0 then [] else groupPages m (m.spaces s).cow with hgrp
  obtain ⟨hnd1, hown'⟩ : own.Nodup ∧ ∀ p ∈ own, ∃ k, ty p = some k ∧ (∃ h, k = .own s h) ∧
      Out s (m.spaces s).cow dies p k := by
    rw [hown]
    split
    · next ho => exact hw.ownPages_spec hs ho dies
    · exact ⟨List.nodup_nil, by simp⟩
  obtain ⟨hnd2, hgrp', hin⟩ : grp.Nodup ∧ (∀ p ∈ grp, ∃ k, ty p = some k ∧
      (k = .group ∨ ∃ h, k = .shared (m.spaces s).cow h) ∧ Out s (m.spaces s).cow dies p k) ∧
      (dies → (m.spaces s).cow ∈ grp) := by
    rw [hgrp]
    split
    · next hc => exact ⟨List.nodup_nil, by simp, fun h => absurd hc (hdies.mp h).1⟩
    · next hc =>
      obtain ⟨h1, h2, h3⟩ := hw.groupPages_spec hs hc
      refine ⟨h1, fun p hp => ?_, fun h => h3 (hdies.mp h).2⟩
      obtain ⟨k, hk, hkind, hout⟩ := h2 p hp
      refine ⟨k, hk, hkind, ?_⟩
      rcases hout with h | h | h | ⟨hd, h⟩
      · exact Or.inl h
      · exact Or.inr (Or.inl h)
      · exact Or.inr (Or.inr (Or.inl h))
      · exact Or.inr (Or.inr (Or.inr ⟨hdies.mpr ⟨hc, hd⟩, h⟩))
  obtain ⟨hnd3, hsp'⟩ := hw.spacePages_spec hs dies
  have hrest : ∀ p ∈ grp ++ spacePages m s, ∃ k, ty p = some k ∧ (¬∃ h, k = .own s h) := by
    intro p hp
    rcases List.mem_append.mp hp with hp | hp
    · obtain ⟨k, hk, rfl | ⟨h, rfl⟩, -⟩ := hgrp' p hp
      · exact ⟨_, hk, by simp⟩
      · exact ⟨_, hk, by simp⟩
    · obtain ⟨k, hk, rfl | ⟨i, rfl⟩, -⟩ := hsp' p hp
      · exact ⟨_, hk, by simp⟩
      · exact ⟨_, hk, by simp⟩
  refine ⟨?_, fun p hp => ?_, fun hd => by simp [hin hd]⟩
  · refine nodup_append_of_kinds hnd1 ?_ (fun p hp => (hown' p hp).imp fun k hk => ⟨hk.1, hk.2.1⟩)
      hrest fun k h h' => h' h
    refine nodup_append_of_kinds hnd2 hnd3
      (fun p hp => (hgrp' p hp).imp fun k hk => ⟨hk.1, hk.2.1⟩)
      (fun p hp => (hsp' p hp).imp fun k hk => ⟨hk.1, hk.2.1⟩) ?_
    rintro k (rfl | ⟨h, rfl⟩) (h' | ⟨i, h'⟩) <;> cases h'
  · rcases List.mem_append.mp hp with hp | hp
    · exact (hown' p hp).imp fun k hk => ⟨hk.1, hk.2.2⟩
    · rcases List.mem_append.mp hp with hp | hp
      · exact (hgrp' p hp).imp fun k hk => ⟨hk.1, hk.2.2⟩
      · exact (hsp' p hp).imp fun k hk => ⟨hk.1, hk.2.2⟩

/-- **`space_destroy`.** -/
theorem Wf.spaceDestroy (hw : Wf sz m ty S) (hs : s ∈ S) :
    ∃ ty', Wf sz (m.spaceDestroy s) ty' (S.erase s) ∧
      Shown m (m.spaceDestroy s) ty ty' (S.erase s) := by
  by_cases hb : s = m.boot
  · have he : m.spaceDestroy s = m := by rw [Mmu.spaceDestroy, if_pos (Or.inr hb)]
    rw [he]
    exact ⟨ty, hw.subset (Finset.erase_subset s S), fun _ _ => rfl, fun _ _ _ _ => rfl, id,
      fun _ _ => Iff.rfl, rfl⟩
  obtain ⟨m', hm', hheap, hspaces, htables, hmem, hgroups, -⟩ :=
    spaceDestroy_eq m (hw.ne_zero hs) hb
  rw [hm']
  obtain ⟨hnd, hpages, hin⟩ := hw.destroyPages_spec hs Iff.rfl
  have hpt : ∀ g h, (m'.groups g).pt h = (m.groups g).pt h := by
    intro g h
    rw [hgroups]
    split
    · rfl
    · exact pt_dropGroup m _ g h
  have hspaces' : ∀ x ∈ S.erase s, m'.spaces x = m.spaces x := fun x hx =>
    hspaces x (Finset.ne_of_mem_erase hx)
  obtain ⟨hw', hdata⟩ := hw.release m' _ hs hnd hpages
    (fun hd => ⟨hd.1, hin hd, by have := hd.2; omega⟩) hheap hspaces' hpt
    (fun g => by
      rw [hgroups]
      split
      · exact Nat.le_add_right _ _
      · exact refs_dropGroup m _ g)
  refine ⟨_, hw', hspaces', fun x hx h i => ?_, ro_without htables hpt, hdata, hmem⟩
  rw [entry, entry, htables, hspaces' x hx]

/-- A space leaves its group, in which it had no table any more. -/
theorem Wf.leaveGroup (hw : Wf sz m ty S) (hs : s ∈ S) :
    ∃ ty', Wf sz (m.leaveGroup s) ty' S ∧ Shown m (m.leaveGroup s) ty ty' (S.erase s) ∧
      (∀ h i, entry (m.leaveGroup s) s h i = entry m s h i) ∧
      (((m.leaveGroup s).spaces s).cow = 0 ∨
        Attached (m.leaveGroup s) s ∧ m.leaveGroup s = m) := by
  by_cases hc : (m.spaces s).cow ≠ 0 ∧
      (m.spaces s).ptCode ≠ (m.groups (m.spaces s).cow).ptCode
  swap
  · have he : m.leaveGroup s = m := if_neg hc
    rw [he]
    refine ⟨ty, hw, ⟨fun _ _ => rfl, fun _ _ _ _ => rfl, id, fun _ _ => Iff.rfl, rfl⟩,
      fun _ _ => rfl, ?_⟩
    by_cases h0 : (m.spaces s).cow = 0
    · exact Or.inl h0
    · exact Or.inr ⟨(hw.attached_iff hs h0).mpr (not_not.mp fun h => hc ⟨h0, h⟩), rfl⟩
  set g := (m.spaces s).cow with hg
  have he : m.leaveGroup s = (m.dropGroup g).setCow s 0 := if_pos hc
  have hsp : (m.dropGroup g).spaces = m.spaces := by rw [dropGroup_eq]; rfl
  have htb : (m.dropGroup g).tables = m.tables := by rw [dropGroup_eq]; rfl
  have hown : ∀ h, ty ((m.spaces s).pt h) = some (.own s h) :=
    (hw.table s hs).resolve_left fun ha => hc.2 (ha.2 .code)
  have hs' : ((m.dropGroup g).setCow s 0).spaces s = { m.spaces s with cow := 0 } := by
    rw [Mmu.setCow, Mmu.setSpace_spaces, Function.update_self, hsp]
  have hspaces : ∀ x ∈ S.erase s, ((m.dropGroup g).setCow s 0).spaces x = m.spaces x := by
    intro x hx
    rw [Mmu.setCow, Mmu.setSpace_spaces, Function.update_of_ne (Finset.ne_of_mem_erase hx), hsp]
  obtain ⟨hnd, hpages, hin⟩ := hw.groupPages_spec hs hc.1
  have stay : ∀ p k, ty p = some k → (k ≠ .group ∧ ∀ h, k ≠ .shared g h) →
      without (groupPages m g) ty p = some k := fun p k hk hne => without_eq_some.mpr
    ⟨fun hp => by
      obtain ⟨k', hk', hkind, -⟩ := hpages p hp
      obtain rfl : k = k' := Option.some.inj (hk.symm.trans hk')
      rcases hkind with h | ⟨h, h'⟩
      · exact hne.1 h
      · exact hne.2 h h', hk⟩
  obtain ⟨hw', hdata⟩ := hw.release ((m.dropGroup g).setCow s 0) _ hs hnd
    (fun p hp => (hpages p hp).imp fun k hk => ⟨hk.1, hk.2.2⟩)
    (fun hd => ⟨hc.1, hin hd, by omega⟩) (by rw [dropGroup_eq]; rfl) hspaces
    (fun g' h => pt_dropGroup m g g' h) (fun g' => refs_dropGroup m g g')
  have hw'' := hw'.insert (Finset.notMem_erase s S) (stay _ _ (hw.space s hs) (by simp))
    (fun i => by
      rw [hs']
      exact stay _ _ (hw.pd s hs i) (by simp))
    (fun h => by
      rw [hs']
      exact hw.link s hs h)
    (Or.inr fun h => by
      rw [hs']
      exact stay _ _ (hown h) (by simp))
    (fun h => absurd (by rw [hs']) h)
  rw [Finset.insert_erase hs] at hw''
  rw [he]
  refine ⟨_, hw'', ⟨hspaces, fun x hx h i => ?_, ?_, hdata, ?_⟩, fun h i => ?_,
    Or.inl (by rw [hs'])⟩
  · rw [entry, entry, hspaces x hx]
    exact congrFun (congrFun htb _) i
  · exact ro_without htb (pt_dropGroup m g)
  · rw [dropGroup_eq]
    rfl
  · rw [entry, entry, hs']
    exact congrFun (congrFun htb _) i

/-! ## Taking pages -/

/-- The state `m'` is `m` with another heap, typed by `ty`. -/
structure Built (sz : D → ℕ) (m m' : Mmu H) (ty : ℕ → Option (Kind D)) : Prop where
  heap : m' = m.setHeap m'.heap
  typed : Typed (Kind.bytes sz) m'.heap ty

theorem Wf.built (hw : Wf sz m ty S) : Built sz m m ty := ⟨rfl, hw.typed⟩

theorem Built.wf (hb : Built sz m m' ty) (hw : Wf sz m ty S) : Wf sz m' ty S := by
  rw [hb.heap]
  exact hw.setHeap hb.typed

theorem Built.shown (hb : Built sz m m' ty) (T : Finset ℕ) : Shown m m' ty ty T := by
  rw [hb.heap]
  exact ⟨fun _ _ => rfl, fun _ _ _ _ => rfl, id, fun _ _ => Iff.rfl, rfl⟩

/-- More pages: they may stay untracked, or get a kind. -/
theorem Built.kframeAllocN {m₂ : Mmu H} {n : ℕ} (hb : Built sz m m' ty) (hn : n < 2 ^ 16)
    (ha : m'.kframeAllocN n = (p, m₂)) :
    Built sz m m₂ ty ∧ (p ≠ 0 → ∀ k : Kind D, k.bytes sz = n * 4096 →
      ∃ ty', Taken ty ty' p k ∧ Built sz m m₂ ty') := by
  obtain ⟨rfl, rfl⟩ := Prod.mk.inj ha
  have heap : ∀ h, m'.setHeap h = m.setHeap h := fun h => by
    rw [hb.heap]
    rfl
  refine ⟨⟨heap _, hb.typed.alloc_leak hn rfl⟩, fun hp k hk => ?_⟩
  obtain ⟨ty', htaken, htyped⟩ := hb.typed.take (k := k) hn hp rfl hk
  exact ⟨ty', htaken, heap _, htyped⟩

theorem Built.kframeAlloc {m₂ : Mmu H} (hb : Built sz m m' ty) (ha : m'.kframeAlloc = (p, m₂)) :
    Built sz m m₂ ty ∧ (p ≠ 0 → ∀ k : Kind D, k.bytes sz = 4096 →
      ∃ ty', Taken ty ty' p k ∧ Built sz m m₂ ty') := by
  obtain ⟨h1, h2⟩ := hb.kframeAllocN (by decide) ha
  exact ⟨h1, fun hp k hk => h2 hp k (by rw [hk])⟩

/-- A new page is given back. -/
theorem Built.free {k : Kind D} (hb : Built sz m m' ty') (ht : Taken ty ty' p k) :
    Built sz m (m'.kfree p) ty := by
  refine ⟨?_, (hb.typed.free ht.self).mono fun q l hq => ?_⟩
  · rw [hb.heap]
    rfl
  · rw [Function.update_of_ne (ht.ne hq)]
    exact ht.old q l hq

/-- Giving back the null pointer does nothing. -/
theorem Built.free_null (hb : Built sz m m' ty) : Built sz m (m'.kfree 0) ty := by
  rw [Mmu.kfree, PageAlloc.free_zero]
  exact hb

/-- **New data** leaves the spaces in order. -/
theorem Wf.data {d : D} (hw : Wf sz m ty S) (ht : Taken ty ty' p (.data d))
    (hb : Built sz m m' ty') : Wf sz m' ty' S ∧ ((∀ g, Ro m ty g) → ∀ g, Ro m' ty' g) := by
  have hm : m' = m.setHeap m'.heap := hb.heap
  have hnew : ∀ g, ty' g = some .group → ty g = some .group := fun g hg =>
    (ht.new g _ hg).resolve_right fun h => by cases h.2
  constructor
  · refine hw.transfer hb.typed (fun _ _ => by rw [hm]; rfl)
      (fun x hx => ht.old _ _ (hw.space x hx))
      (fun x _ p i hp => ht.old _ _ hp) (fun x _ p h hp => ht.old _ _ hp)
      (fun x hx hc => ⟨ht.old _ _ (hw.cow x hx hc), fun _ => by rw [hm]; rfl⟩) (fun g hg h => ?_)
      (fun g hg => ?_)
    · rw [hm]
      exact ht.old _ _ (hw.shared g (hnew g hg) h)
    · rw [hm]
      exact hw.refs g (hnew g hg)
  · intro hro g hg
    rw [hm]
    exact hro g (hnew g hg)

/-- Where new pages are. -/
theorem Wf.pages_apart {n : ℕ} (hw : Wf sz m ty S) (hn : n < 2 ^ 16)
    (ha : m.kframeAllocN n = (p, m')) (h0 : p ≠ 0) :
    4096 ∣ p ∧ ∀ q k, ty q = some k → q + k.bytes sz ≤ p ∨ p + n * 4096 ≤ q := by
  have halloc : PageAlloc.allocN m.heap n = (p, m'.heap) := by
    obtain ⟨rfl, rfl⟩ := Prod.mk.inj ha
    rfl
  have hdvd := PageAlloc.allocN_dvd m.heap n hn
  rw [halloc] at hdvd
  exact ⟨hdvd, fun q k hq => hw.typed.apart hn h0 halloc hq⟩

/-- The kinds of a space and what it holds by itself. -/
def Kind.OwnOf (s : ℕ) (k : Kind D) : Prop :=
  k = .space ∨ (∃ i, k = .pd s i) ∨ ∃ h, k = .own s h

/-- The typing grew by pages of one space. -/
structure Grown (s : ℕ) (ty ty' : ℕ → Option (Kind D)) : Prop where
  /-- Everything keeps its kind. -/
  old : ∀ p k, ty p = some k → ty' p = some k
  /-- What is new is the space's own. -/
  new : ∀ p k, ty' p = some k → ty p = some k ∨ k.OwnOf s

theorem Grown.refl (s : ℕ) (ty : ℕ → Option (Kind D)) : Grown s ty ty :=
  ⟨fun _ _ => id, fun _ _ => Or.inl⟩

theorem Grown.take {ty'' : ℕ → Option (Kind D)} {k : Kind D} (hg : Grown s ty ty')
    (ht : Taken ty' ty'' p k) (hk : k.OwnOf s) : Grown s ty ty'' := by
  refine ⟨fun q l hq => ht.old q l (hg.old q l hq), fun q l hq => ?_⟩
  rcases ht.new q l hq with hq' | ⟨-, rfl⟩
  · exact hg.new q l hq'
  · exact Or.inr hk

theorem Grown.group (hg : Grown s ty ty') : ty' g = some .group ↔ ty g = some .group := by
  refine ⟨fun h => (hg.new g _ h).resolve_right ?_, hg.old g _⟩
  rintro (h | ⟨i, h⟩ | ⟨h', h⟩) <;> cases h

theorem Grown.sameData (hg : Grown s ty ty') : SameData ty ty' := by
  refine fun p d => ⟨fun h => (hg.new p _ h).resolve_right ?_, hg.old p _⟩
  rintro (h | ⟨i, h⟩ | ⟨h', h⟩) <;> cases h

theorem Wf.group_pt_ne (hw : Wf sz m ty S) (hg : ty g = some .group) {q : ℕ} (hq : ty q = none)
    (h : Half) : (m.groups g).pt h ≠ q := by
  rintro rfl
  have := hw.shared g hg h
  rw [hq] at this
  cases this

/-- Other tables were written, and one space changed: the others are as before. -/
theorem Wf.shown_of_grown (hw : Wf sz m ty S) (hg : Grown s ty ty') {T : Finset ℕ} (hT : T ⊆ S)
    (hspaces : ∀ x ∈ T, m'.spaces x = m.spaces x) (hgroups : m'.groups = m.groups)
    (hmem : m'.mem = m.mem) (htables : ∀ q k, ty q = some k → m'.tables q = m.tables q) :
    Shown m m' ty ty' T := by
  refine ⟨hspaces, fun x hx h i => ?_, fun hro g hgr h i => ?_, hg.sameData, hmem⟩
  · obtain ⟨k, hk, -⟩ := hw.exists_table (hT hx) h
    rw [entry, entry, hspaces x hx, htables _ k hk]
  · have hgr' := hg.group.mp hgr
    rw [hgroups, htables _ _ (hw.shared g hgr' h)]
    exact hro g hgr' h i

/-- Pages of one space leave the other spaces in order. -/
theorem Wf.grown (hw : Wf sz m ty S) (hg : Grown s ty ty')
    (htyped : Typed (Kind.bytes sz) m'.heap ty')
    (hspaces : ∀ x ∈ S, m'.spaces x = m.spaces x) (hgroups : m'.groups = m.groups) :
    Wf sz m' ty' S := by
  refine hw.transfer htyped hspaces (fun x hx => hg.old _ _ (hw.space x hx))
    (fun x _ p i hp => hg.old _ _ hp) (fun x _ p h hp => hg.old _ _ hp)
    (fun x hx hc => ⟨hg.old _ _ (hw.cow x hx hc), fun h => by rw [hgroups]⟩) (fun g hgr h => ?_)
    (fun g hgr => ?_)
  · rw [hgroups]
    exact hg.old _ _ (hw.shared g (hg.group.mp hgr) h)
  · rw [hgroups]
    exact hw.refs g (hg.group.mp hgr)

/-- A state with a new, empty space. -/
structure Created (sz : D → ℕ) (m m' : Mmu H) (ty : ℕ → Option (Kind D)) (S : Finset ℕ) (s : ℕ) :
    Prop where
  /-- The space is new. -/
  fresh : s ∉ S
  /-- Everything is in order, and the others look as before. -/
  wf : ∃ ty', Wf sz m' ty' (insert s S) ∧ Shown m m' ty ty' S
  /-- It has no group, -/
  cow : (m'.spaces s).cow = 0
  /-- and maps nothing. -/
  empty : ∀ h i, entry m' s h i = .zero

/-- **A new space** with a page for each of its parts, and two empty tables. -/
theorem Wf.created {pd : Fin 4 → ℕ} {code heap : ℕ} (hw : Wf sz m ty S) (hb : Built sz m m' ty')
    (hg : Grown s ty ty')
    (hs : ty s = none) (hspace : ty' s = some .space) (hpd : ∀ i, ty' (pd i) = some (.pd s i))
    (hcode : ty' code = some (.own s .code)) (hheap : ty' heap = some (.own s .heap))
    (hold : ∀ q k, ty q = some k → q ≠ code ∧ q ≠ heap) :
    Created sz m (((m'.setTable code .zero).setTable heap .zero).setSpace s ⟨pd, code, heap,
      code, heap, 1, 0⟩) ty S
      s := by
  have hm : m' = m.setHeap m'.heap := hb.heap
  set m₁ := ((m'.setTable code .zero).setTable heap .zero).setSpace s ⟨pd, code, heap,
    code, heap, 1, 0⟩ with hm₁
  have hsS : s ∉ S := fun h => nomatch hs.symm.trans (hw.space s h)
  have hnew : m₁.spaces s = ⟨pd, code, heap, code, heap, 1, 0⟩ := Function.update_self ..
  have hspaces : ∀ x ∈ S, m₁.spaces x = m.spaces x := by
    intro x hx
    have hne : x ≠ s := fun h => hsS (h ▸ hx)
    rw [hm₁, Mmu.setSpace_spaces, Function.update_of_ne hne, hm]
    rfl
  have hgroups : m₁.groups = m.groups := by
    rw [hm₁, hm]
    rfl
  have hmem : m₁.mem = m.mem := by
    rw [hm₁, hm]
    rfl
  -- the two new tables were free before
  have htables : ∀ q k, ty q = some k → m₁.tables q = m.tables q := by
    intro q k hq
    obtain ⟨h1, h2⟩ := hold q k hq
    rw [hm₁, Mmu.setSpace_tables, Mmu.setTable_tables, Function.update_of_ne h2,
      Mmu.setTable_tables, Function.update_of_ne h1, hm]
    rfl
  have hpt : ∀ h, m₁.tables ((m₁.spaces s).pt h) = .zero := by
    have hne : code ≠ heap := fun he => by
      rw [he, hheap] at hcode
      cases hcode
    intro h
    rw [hnew, hm₁]
    cases h with
    | code =>
      change Function.update (Function.update _ code _) heap _ code = _
      rw [Function.update_of_ne hne, Function.update_self]
    | heap =>
      change Function.update (Function.update _ code _) heap _ heap = _
      rw [Function.update_self]
  have hwS : Wf sz m₁ ty' S := hw.grown hg hb.typed hspaces hgroups
  refine ⟨hsS,
    ⟨ty', hwS.insert hsS hspace (fun i => ?_) (fun h => ?_) (Or.inr fun h => ?_) fun h => ?_,
    hw.shown_of_grown hg subset_rfl hspaces hgroups hmem htables⟩,
    by rw [hnew], fun h i => congrFun (hpt h) i⟩
  · rw [hnew]
    exact hpd i
  · rw [hnew]
    cases h <;> rfl
  · rw [hnew]
    cases h with
    | code => exact hcode
    | heap => exact hheap
  · rw [hnew] at h
    exact absurd rfl h

/-- **`space_create`** fails with nothing but pages lost, or makes an empty space. -/
theorem Wf.spaceCreate (hw : Wf sz m ty S) :
    (m.spaceCreate.1 = 0 ∧ Built sz m m.spaceCreate.2 ty) ∨
      (m.spaceCreate.1 ≠ 0 ∧ Created sz m m.spaceCreate.2 ty S m.spaceCreate.1) := by
  rcases h0 : m.kframeAlloc with ⟨s, m0⟩
  obtain ⟨l0, t0⟩ := hw.built.kframeAlloc h0
  simp only [Mmu.spaceCreate, h0]
  split
  · exact Or.inl ⟨rfl, l0⟩
  next hs0 =>
  obtain ⟨ty0, k0, b0⟩ := t0 hs0 .space rfl
  have g0 := (Grown.refl s ty).take k0 (Or.inl rfl)
  rcases h1 : m0.kframeAlloc with ⟨pd0, m1⟩
  obtain ⟨l1, -⟩ := l0.kframeAlloc h1
  obtain ⟨-, t1⟩ := b0.kframeAlloc h1
  simp only
  split
  · exact Or.inl ⟨rfl, l1⟩
  next hp0 =>
  obtain ⟨ty1, k1, b1⟩ := t1 hp0 (.pd s 0) rfl
  have g1 := g0.take k1 (Or.inr (Or.inl ⟨_, rfl⟩))
  rcases h2 : m1.kframeAlloc with ⟨pd1, m2⟩
  obtain ⟨l2, -⟩ := l1.kframeAlloc h2
  obtain ⟨-, t2⟩ := b1.kframeAlloc h2
  simp only
  split
  · exact Or.inl ⟨rfl, l2⟩
  next hp1 =>
  obtain ⟨ty2, k2, b2⟩ := t2 hp1 (.pd s 1) rfl
  have g2 := g1.take k2 (Or.inr (Or.inl ⟨_, rfl⟩))
  rcases h3 : m2.kframeAlloc with ⟨pd2, m3⟩
  obtain ⟨l3, -⟩ := l2.kframeAlloc h3
  obtain ⟨-, t3⟩ := b2.kframeAlloc h3
  simp only
  split
  · exact Or.inl ⟨rfl, l3⟩
  next hp2 =>
  obtain ⟨ty3, k3, b3⟩ := t3 hp2 (.pd s 2) rfl
  have g3 := g2.take k3 (Or.inr (Or.inl ⟨_, rfl⟩))
  rcases h4 : m3.kframeAlloc with ⟨pd3, m4⟩
  obtain ⟨l4, -⟩ := l3.kframeAlloc h4
  obtain ⟨-, t4⟩ := b3.kframeAlloc h4
  simp only
  split
  · exact Or.inl ⟨rfl, l4⟩
  next hp3 =>
  obtain ⟨ty4, k4, b4⟩ := t4 hp3 (.pd s 3) rfl
  have g4 := g3.take k4 (Or.inr (Or.inl ⟨_, rfl⟩))
  rcases h5 : m4.kframeAlloc with ⟨code, m5⟩
  obtain ⟨l5, -⟩ := l4.kframeAlloc h5
  obtain ⟨-, t5⟩ := b4.kframeAlloc h5
  simp only
  rcases h6 : m5.kframeAlloc with ⟨heap, m6⟩
  obtain ⟨l6, -⟩ := l5.kframeAlloc h6
  simp only
  split
  · exact Or.inl ⟨rfl, l6⟩
  next hch =>
  obtain ⟨hcode, hheap⟩ := not_or.mp hch
  obtain ⟨ty5, k5, b5⟩ := t5 hcode (.own s .code) rfl
  have g5 := g4.take k5 (Or.inr (Or.inr ⟨_, rfl⟩))
  obtain ⟨-, t6⟩ := b5.kframeAlloc h6
  obtain ⟨ty6, k6, b6⟩ := t6 hheap (.own s .heap) rfl
  have g6 := g5.take k6 (Or.inr (Or.inr ⟨_, rfl⟩))
  refine Or.inr ⟨hs0, hw.created b6 g6 k0.fresh ?_ (fun i => ?_) (k6.old _ _ k5.self)
    k6.self fun q k hq => ?_⟩
  · exact k6.old _ _ (k5.old _ _ (k4.old _ _ (k3.old _ _ (k2.old _ _ (k1.old _ _ k0.self)))))
  · fin_cases i
    · exact k6.old _ _ (k5.old _ _ (k4.old _ _ (k3.old _ _ (k2.old _ _ k1.self))))
    · exact k6.old _ _ (k5.old _ _ (k4.old _ _ (k3.old _ _ k2.self)))
    · exact k6.old _ _ (k5.old _ _ (k4.old _ _ k3.self))
    · exact k6.old _ _ (k5.old _ _ k4.self)
  · exact ⟨k5.ne (g4.old q k hq), k6.ne (g5.old q k hq)⟩

/-! ## Sharing -/

omit [PageAlloc H] in
theorem members_congr {T : Finset ℕ} (h : ∀ x ∈ T, m'.spaces x = m.spaces x) (g : ℕ) :
    members m' T g = members m T g :=
  Finset.filter_congr fun x hx => by rw [h x hx]

/-- A page that was free is no group anybody names. -/
theorem Wf.members_eq_empty (hw : Wf sz m ty S) (hg : ty g = none) (h0 : g ≠ 0) :
    members m S g = ∅ := by
  refine Finset.filter_eq_empty_iff.mpr fun x hx hc => ?_
  have := hw.cow x hx (hc ▸ h0)
  rw [hc, hg] at this
  cases this

/-- Two tables change hands: they are those of a group that is new. -/
theorem exists_given {ty₁ : ℕ → Option (Kind D)} {h : H}
    (hown : ∀ h, ty ((m.spaces s).pt h) = some (.own s h))
    (ht : Taken ty ty₁ g .group) (hty : Typed (Kind.bytes sz) h ty₁) :
    ∃ ty₂, Typed (Kind.bytes sz) h ty₂ ∧ (∀ h, ty₂ ((m.spaces s).pt h) = some (.shared g h)) ∧
      ty₂ g = some .group ∧ (∀ q k, ty q = some k → (∀ h, k ≠ .own s h) → ty₂ q = some k) ∧
      ∀ q k, ty₂ q = some k → (∀ h, k ≠ .shared g h) → ty q = some k ∨ q = g ∧ k = .group := by
  have hcode : ty (m.spaces s).ptCode = some (.own s .code) := hown .code
  have hheap : ty (m.spaces s).ptHeap = some (.own s .heap) := hown .heap
  have hne : (m.spaces s).ptHeap ≠ (m.spaces s).ptCode := by
    intro he
    rw [he, hcode] at hheap
    cases hheap
  set ty₂ := Function.update (Function.update ty₁ (m.spaces s).ptCode (some (.shared g .code)))
    (m.spaces s).ptHeap (some (.shared g .heap)) with hty₂
  have htyped : Typed (Kind.bytes sz) h ty₂ := by
    have h1 : Typed (Kind.bytes sz) h (Function.update ty₁ (m.spaces s).ptCode
      (some (.shared g .code))) :=
      hty.retype (ht.old _ _ hcode) rfl
    refine h1.retype (k := .own s .heap) ?_ rfl
    rw [Function.update_of_ne hne]
    exact ht.old _ _ hheap
  have hpt : ∀ h, ty₂ ((m.spaces s).pt h) = some (.shared g h) := by
    intro h
    cases h with
    | code =>
      change ty₂ (m.spaces s).ptCode = _
      rw [hty₂, Function.update_of_ne (Ne.symm hne), Function.update_self]
    | heap =>
      change ty₂ (m.spaces s).ptHeap = _
      rw [hty₂, Function.update_self]
  have off : ∀ q, q ≠ (m.spaces s).ptCode → q ≠ (m.spaces s).ptHeap → ty₂ q = ty₁ q := by
    intro q h1 h2
    rw [hty₂, Function.update_of_ne h2, Function.update_of_ne h1]
  refine ⟨ty₂, htyped, hpt, (off g (ht.ne hcode).symm (ht.ne hheap).symm).trans ht.self,
    fun q k hq hk => ?_,
    fun q k hq hk => ?_⟩
  · rw [off q ?_ ?_]
    · exact ht.old q k hq
    · rintro rfl
      exact hk .code (Option.some.inj (hq.symm.trans hcode))
    · rintro rfl
      exact hk .heap (Option.some.inj (hq.symm.trans hheap))
  · rw [off q ?_ ?_] at hq
    · exact ht.new q k hq
    · rintro rfl
      exact hk .code (Option.some.inj (hq.symm.trans (hpt .code)))
    · rintro rfl
      exact hk .heap (Option.some.inj (hq.symm.trans (hpt .heap)))

/-- **A new group** takes the tables of a space, which is in it then. -/
theorem Wf.newGroup {ty₁ : ℕ → Option (Kind D)} (hw : Wf sz m ty S) (hs : s ∈ S)
    (hown : ∀ h, ty ((m.spaces s).pt h) = some (.own s h)) (ht : Taken ty ty₁ g .group)
    (hg0 : g ≠ 0)
    (hty : Typed (Kind.bytes sz) m'.heap ty₁)
    (hsp : m'.spaces = Function.update m.spaces s { m.spaces s with cow := g })
    (hgr : m'.groups = Function.update m.groups g ⟨(m.spaces s).ptCode, (m.spaces s).ptHeap, 1⟩) :
    ∃ ty', Wf sz m' ty' S ∧ SameData ty ty' ∧ Attached m' s ∧
      (∀ g', ty' g' = some .group → g' = g ∨ ty g' = some .group) ∧
      ∀ g', ty g' = some .group → ∀ h, (m'.groups g').pt h = (m.groups g').pt h := by
  obtain ⟨ty₂, htyped, hpt, hself, stay, back⟩ := exists_given hown ht hty
  have hs2 : m'.spaces s = { m.spaces s with cow := g } := by rw [hsp, Function.update_self]
  have hg2 : m'.groups g = ⟨(m.spaces s).ptCode, (m.spaces s).ptHeap, 1⟩ := by
    rw [hgr, Function.update_self]
  have hgx : ∀ g', g' ≠ g → m'.groups g' = m.groups g' := fun g' hne => by
    rw [hgr, Function.update_of_ne hne]
  have hptg : ∀ h, (m'.groups g).pt h = (m.spaces s).pt h := fun h => by
    rw [hg2]
    cases h <;> rfl
  have hmem0 : members m (S.erase s) g = ∅ :=
    (hw.subset (Finset.erase_subset s S)).members_eq_empty ht.fresh hg0
  have hxe : ∀ x ∈ S.erase s, m'.spaces x = m.spaces x := fun x hx => by
    rw [hsp, Function.update_of_ne (Finset.ne_of_mem_erase hx)]
  have hatt : Attached m' s := by
    refine ⟨by rw [hs2]; exact hg0, fun h => ?_⟩
    rw [hs2]
    exact (hptg h).symm
  have hwe : Wf sz m' ty₂ (S.erase s) := by
    refine (hw.subset (Finset.erase_subset s S)).transfer htyped hxe
      (fun x hx => stay x _ (hw.space x (Finset.mem_of_mem_erase hx)) nofun)
      (fun x hx p i hp => stay p _ hp nofun) (fun x hx p h hp => stay p _ hp ?_)
      (fun x hx hc => ?_) (fun g' hg' h => ?_) (fun g' hg' => ?_)
    · intro h' he
      exact Finset.ne_of_mem_erase hx (Kind.own.inj he).1
    · have hc' := hw.cow x (Finset.mem_of_mem_erase hx) hc
      exact ⟨stay _ _ hc' nofun, fun h => by rw [hgx _ (ht.ne hc')]⟩
    · rcases back g' _ hg' nofun with hg' | ⟨rfl, -⟩
      · rw [hgx _ (ht.ne hg')]
        exact stay _ _ (hw.shared g' hg' h) nofun
      · rw [hptg]
        exact hpt h
    · rcases back g' _ hg' nofun with hg' | ⟨rfl, -⟩
      · rw [hgx _ (ht.ne hg')]
        exact (hw.subset (Finset.erase_subset s S)).refs g' hg'
      · rw [hmem0, Finset.card_empty]
        exact Nat.zero_le _
  have hwS := hwe.insert (Finset.notMem_erase s S) (stay s _ (hw.space s hs) nofun)
    (fun i => by
      rw [hs2]
      exact stay _ _ (hw.pd s hs i) nofun)
    (fun h => by
      rw [hs2]
      exact hw.link s hs h)
    (Or.inl hatt)
    (fun _ => by
      rw [hs2]
      refine ⟨hself, ?_⟩
      rw [members_congr hxe, hmem0, Finset.card_empty, hg2])
  rw [Finset.insert_erase hs] at hwS
  refine ⟨ty₂, hwS, fun p d => ⟨fun hp => ?_, fun hp => stay p _ hp nofun⟩, hatt, fun g' hg' => ?_,
    fun g' hg' h => ?_⟩
  · rcases back p _ hp nofun with hp | ⟨-, hk⟩
    · exact hp
    · cases hk
  · exact (back g' _ hg' nofun).symm.imp And.left id
  · rw [hgx _ (ht.ne hg')]

/-- **The group of a parent**: the one it is attached to, or a new one that takes its tables. -/
theorem Wf.enterGroup (hw : Wf sz m ty S) (hs : s ∈ S)
    (hcow : (m.spaces s).cow = 0 ∨ Attached m s) :
    ((m.enterGroup s).1 = 0 ∧ Built sz m (m.enterGroup s).2 ty) ∨
      ((m.enterGroup s).1 ≠ 0 ∧ ∃ ty', Wf sz (m.enterGroup s).2 ty' S ∧ SameData ty ty' ∧
        Attached (m.enterGroup s).2 s ∧ ((m.enterGroup s).2.spaces s).cow = (m.enterGroup s).1 ∧
        (∀ x, x ≠ s → (m.enterGroup s).2.spaces x = m.spaces x) ∧
        (∀ h, ((m.enterGroup s).2.spaces s).pt h = (m.spaces s).pt h) ∧
        (m.enterGroup s).2.tables = m.tables ∧ (m.enterGroup s).2.mem = m.mem ∧
        (∀ g, ty' g = some .group → g = (m.enterGroup s).1 ∨ ty g = some .group) ∧
        ∀ g, ty g = some .group →
          ∀ h, ((m.enterGroup s).2.groups g).pt h = (m.groups g).pt h) := by
  by_cases h0 : (m.spaces s).cow = 0
  swap
  · have he : m.enterGroup s = ((m.spaces s).cow, m) := if_pos h0
    rw [he]
    exact Or.inr ⟨h0, ty, hw, fun _ _ => Iff.rfl, hcow.resolve_left h0, rfl, fun _ _ => rfl,
      fun _ => rfl, rfl, rfl, fun _ => Or.inr, fun _ _ _ => rfl⟩
  rcases hk : m.kframeAlloc with ⟨g, m1⟩
  obtain ⟨hl, ht⟩ := hw.built.kframeAlloc hk
  rw [Mmu.enterGroup, if_neg (not_not.mpr h0)]
  simp only [hk]
  split
  · exact Or.inl ⟨rfl, hl⟩
  next hg0 =>
  obtain ⟨ty1, htaken, hb⟩ := ht hg0 .group rfl
  have hm1 : m1 = m.setHeap m1.heap := hb.heap
  have hsp1 : m1.spaces = m.spaces := by rw [hm1]; rfl
  have hgr1 : m1.groups = m.groups := by rw [hm1]; rfl
  have htb1 : m1.tables = m.tables := by rw [hm1]; rfl
  have hme1 : m1.mem = m.mem := by rw [hm1]; rfl
  set m2 := (m1.setGroup g ⟨(m1.spaces s).ptCode, (m1.spaces s).ptHeap, 1⟩).setCow s g with hm2
  have hsp : m2.spaces = Function.update m.spaces s { m.spaces s with cow := g } := by
    rw [hm2, Mmu.setCow, Mmu.setSpace_spaces, Mmu.setGroup_spaces, hsp1]
  have hgr : m2.groups = Function.update m.groups g ⟨(m.spaces s).ptCode,
      (m.spaces s).ptHeap, 1⟩ := by
    rw [hm2, Mmu.setCow, Mmu.setSpace_groups, Mmu.setGroup_groups, hgr1, hsp1]
  have hown : ∀ h, ty ((m.spaces s).pt h) = some (.own s h) :=
    (hw.table s hs).resolve_left fun ha => ha.1 h0
  have htyped : Typed (Kind.bytes sz) m2.heap ty1 := hb.typed
  obtain ⟨ty2, hw2, hdata, hatt, hnew, hold⟩ := hw.newGroup hs hown htaken hg0 htyped hsp hgr
  have hs2 : m2.spaces s = { m.spaces s with cow := g } := by rw [hsp, Function.update_self]
  refine Or.inr ⟨hg0, ty2, hw2, hdata, hatt, by rw [hs2], fun x hx => ?_, fun h => by rw [hs2]; rfl,
    ?_, ?_, hnew,
    hold⟩
  · rw [hsp, Function.update_of_ne hx]
  · rw [← htb1]
    rfl
  · rw [← hme1]
    rfl

/-- **A child joins a group** and gives its own tables back. -/
theorem Wf.attach {c : ℕ} (hw : Wf sz m ty S) (hc : c ∈ S) (h0 : (m.spaces c).cow = 0)
    (hg : ty g = some .group) :
    ∃ ty', Wf sz (m.attach c g) ty' S ∧ Shown m (m.attach c g) ty ty' (S.erase c) ∧
      ((m.attach c g).spaces c).cow = g ∧
      ∀ h, ((m.attach c g).spaces c).pt h = (m.groups g).pt h := by
  have hg0 := hw.typed.ne_zero hg
  have hc1 : (m.attach c g).spaces c = { m.spaces c with
      linkCode := (m.groups g).ptCode, linkHeap := (m.groups g).ptHeap
      ptCode := (m.groups g).ptCode, ptHeap := (m.groups g).ptHeap, cow := g } := by
    simp only [Mmu.attach, Mmu.linkTables, Mmu.setGroup_spaces, Mmu.setSpace_spaces,
      Function.update_self]
    rfl
  have hx1 : ∀ x ∈ S.erase c, (m.attach c g).spaces x = m.spaces x := by
    intro x hx
    simp only [Mmu.attach, Mmu.linkTables, Mmu.setGroup_spaces, Mmu.setSpace_spaces,
      Function.update_of_ne (Finset.ne_of_mem_erase hx)]
    rfl
  have hgr : (m.attach c g).groups
      = Function.update m.groups g { m.groups g with refs := (m.groups g).refs + 1 } := rfl
  have hpt : ∀ g' h, ((m.attach c g).groups g').pt h = (m.groups g').pt h := by
    intro g' h
    rw [hgr]
    by_cases he : g' = g
    · subst he
      rw [Function.update_self]
      cases h <;> rfl
    · rw [Function.update_of_ne he]
  obtain ⟨hnd, hpages⟩ := hw.ownPages_spec hc (Or.inl h0) False
  obtain ⟨hwe, hdata⟩ := hw.release (m.attach c g) False hc hnd
    (fun p hp => (hpages p hp).imp fun k hk => ⟨hk.1, hk.2.2⟩) False.elim rfl hx1 hpt
    (fun g' => by
      rw [hgr]
      by_cases he : g' = g
      · subst he
        rw [Function.update_self]
        exact (Nat.le_add_right _ _).trans (Nat.le_add_right _ _)
      · rw [Function.update_of_ne he]
        exact Nat.le_add_right _ _)
  have stay : ∀ p k, ty p = some k → (∀ h, k ≠ .own c h) →
      without (ownPages m c) ty p = some k := fun p k hk hne => without_eq_some.mpr
    ⟨fun hp => by
      obtain ⟨k', hk', ⟨h, rfl⟩, -⟩ := hpages p hp
      exact hne h (Option.some.inj (hk.symm.trans hk')), hk⟩
  have hwS := hwe.insert (Finset.notMem_erase c S) (stay c _ (hw.space c hc) (by simp))
    (fun i => by
      rw [hc1]
      exact stay _ _ (hw.pd c hc i) (by simp))
    (fun h => by
      rw [hc1]
      cases h <;> rfl)
    (Or.inl ⟨by rw [hc1]; exact hg0, fun h => by
      rw [hc1, hpt]
      cases h <;> rfl⟩)
    (fun _ => by
      rw [hc1]
      refine ⟨stay g _ hg (by simp), ?_⟩
      rw [members_congr hx1, hgr, Function.update_self]
      exact Nat.succ_le_succ ((hw.subset (Finset.erase_subset c S)).refs g hg))
  rw [Finset.insert_erase hc] at hwS
  refine ⟨_, hwS, ⟨hx1, fun x hx h i => ?_, ro_without rfl hpt, hdata, rfl⟩,
    by rw [hc1], fun h => ?_⟩
  · rw [entry, entry, hx1 x hx]
    rfl
  · rw [hc1]
    cases h <;> rfl

@[simp] theorem Pte.protect_protect (e : Pte) : e.protect.protect = e.protect := by
  cases e with
  | mk frame present rw user => cases present <;> rfl

theorem Pte.protect_eq_self {e : Pte} (h : e.present = true → e.rw = false) : e.protect = e := by
  cases e with
  | mk frame present rw user =>
    cases present with
    | false => rfl
    | true =>
      obtain rfl : rw = false := h rfl
      rfl

@[simp] theorem Pte.present_protect (e : Pte) : e.protect.present = e.present := by
  rw [Pte.protect]
  split <;> rfl

@[simp] theorem Pte.frame_protect (e : Pte) : e.protect.frame = e.frame := by
  rw [Pte.protect]
  split <;> rfl

@[simp] theorem Pte.user_protect (e : Pte) : e.protect.user = e.user := by
  rw [Pte.protect]
  split <;> rfl

theorem Pte.rw_protect {e : Pte} (h : e.present = true) : e.protect.rw = false := by
  rw [Pte.protect, if_pos h]

omit [PageAlloc H] in
theorem tables_protect (m : Mmu H) (g q : ℕ) (i : Fin 512) : (m.protect g).tables q i =
    if q = (m.groups g).ptCode ∨ q = (m.groups g).ptHeap then (m.tables q i).protect
    else m.tables q i := by
  simp only [Mmu.protect, Mmu.setTable_tables, Mmu.setTable_groups]
  by_cases hh : q = (m.groups g).ptHeap <;> by_cases hc : q = (m.groups g).ptCode
  · subst hh
    simp [← hc]
  · subst hh
    simp [hc]
  · subst hc
    simp [hh]
  · simp [hh, hc]

omit [PageAlloc H] in
/-- The tables are linked already. -/
theorem linkTables_eq_self (h : ∀ h, (m.spaces s).link h = (m.spaces s).pt h) :
    m.linkTables s = m := by
  have hc : (m.spaces s).linkCode = (m.spaces s).ptCode := h .code
  have hh : (m.spaces s).linkHeap = (m.spaces s).ptHeap := h .heap
  rw [Mmu.linkTables, ← hc, ← hh]
  exact congrArg (fun f => { m with spaces := f }) (Function.update_eq_self s m.spaces)

/-- Of the heap only what is in it is part of the invariant, and tables and frames are not. -/
theorem Wf.rebuilt (hw : Wf sz m ty S) (htyped : Typed (Kind.bytes sz) m'.heap ty)
    (hspaces : m'.spaces = m.spaces)
    (hgroups : m'.groups = m.groups) : Wf sz m' ty S := by
  refine hw.transfer htyped (fun x _ => by rw [hspaces]) hw.space
    (fun x hx p i => id) (fun x hx p h => id) (fun x hx hc => ⟨hw.cow x hx hc, fun h => ?_⟩)
    (fun g hg h => ?_) (fun g hg => ?_)
  · rw [hgroups]
  · rw [hgroups]
    exact hw.shared g hg h
  · rw [hgroups]
    exact hw.refs g hg

theorem Wf.congr (hw : Wf sz m ty S) (hheap : m'.heap = m.heap) (hspaces : m'.spaces = m.spaces)
    (hgroups : m'.groups = m.groups) : Wf sz m' ty S :=
  hw.rebuilt (hheap ▸ hw.typed) hspaces hgroups

/-- **The tables of a group are made read only.** Whoever else uses them finds them so already. -/
theorem Wf.protect (hw : Wf sz m ty S) (hg : ty g = some .group) (hro : ∀ g', g' ≠ g → Ro m ty g')
    (hnew : Ro m ty g ∨ ∀ x ∈ S, x ≠ p → (m.spaces x).cow ≠ g) :
    (∀ g', Ro (m.protect g) ty g') ∧
      (∀ h i, (m.protect g).tables ((m.groups g).pt h) i =
        (m.tables ((m.groups g).pt h) i).protect) ∧
      ∀ x ∈ S, x ≠ p → ∀ h i, entry (m.protect g) x h i = entry m x h i := by
  have htab : ∀ h i, (m.protect g).tables ((m.groups g).pt h) i =
      (m.tables ((m.groups g).pt h) i).protect := by
    intro h i
    rw [tables_protect, if_pos]
    cases h
    · exact Or.inl rfl
    · exact Or.inr rfl
  have htab' : ∀ q i, (∀ h, q ≠ (m.groups g).pt h) → (m.protect g).tables q i = m.tables q i := by
    intro q i hq
    rw [tables_protect, if_neg]
    rintro (h | h)
    · exact hq .code h
    · exact hq .heap h
  refine ⟨fun g' hg' h i => ?_, htab, fun x hx hxp h i => ?_⟩
  · change ((m.protect g).tables ((m.groups g').pt h) i).present = true → _
    by_cases he : g' = g
    · subst he
      intro hpres
      rw [htab, Pte.present_protect] at hpres
      exact (congrArg Pte.rw (htab h i)).trans (Pte.rw_protect hpres)
    · have hother := htab' ((m.groups g').pt h) i fun h' heq => by
        have h1 := hw.shared g' hg' h
        rw [heq, hw.shared g hg h'] at h1
        exact he (Kind.shared.inj (Option.some.inj h1)).1.symm
      intro hpres
      rw [hother] at hpres
      exact (congrArg Pte.rw hother).trans (hro g' he hg' h i hpres)
  · by_cases hq : ∃ h', (m.spaces x).pt h = (m.groups g).pt h'
    · obtain ⟨h', hq⟩ := hq
      have hk := hw.shared g hg h'
      rw [← hq] at hk
      have hatt : Attached m x := (hw.table x hx).resolve_right fun ho => by
        rw [ho h] at hk
        cases hk
      have hcx : (m.spaces x).cow = g := by
        have := hw.table_of_attached hx hatt h
        rw [hk] at this
        exact (Kind.shared.inj (Option.some.inj this)).1.symm
      have hro' : Ro m ty g := hnew.resolve_right fun hno => hno x hx hxp hcx
      change (m.protect g).tables ((m.spaces x).pt h) i = m.tables ((m.spaces x).pt h) i
      rw [hq, htab]
      exact Pte.protect_eq_self (hro' hg h' i)
    · exact htab' _ i fun h' he => hq ⟨h', he⟩

/-- **`space_share_user`** fails with the parent as it was, or leaves parent and child attached to
one group, with the entries of the parent made read only. -/
theorem Wf.spaceShareUser {c p : ℕ} (hw : Wf sz m ty S) (hro : ∀ g, Ro m ty g) (hp : p ∈ S)
    (hc : c ∈ S) (hne : c ≠ p) (h0 : (m.spaces c).cow = 0) :
    ((m.spaceShareUser c p).1 = false ∧ ∃ ty', Wf sz (m.spaceShareUser c p).2 ty' S ∧
        Shown m (m.spaceShareUser c p).2 ty ty' (S.erase p) ∧
        ∀ h i, entry (m.spaceShareUser c p).2 p h i = entry m p h i) ∨
      ((m.spaceShareUser c p).1 = true ∧ ∃ ty', Wf sz (m.spaceShareUser c p).2 ty' S ∧
        Shown m (m.spaceShareUser c p).2 ty ty' ((S.erase p).erase c) ∧
        Attached (m.spaceShareUser c p).2 p ∧ Attached (m.spaceShareUser c p).2 c ∧
        (∀ h i, entry (m.spaceShareUser c p).2 p h i = (entry m p h i).protect) ∧
        ∀ h i, entry (m.spaceShareUser c p).2 c h i = (entry m p h i).protect) := by
  have hpt : ∀ h, (m.spaces p).pt h ≠ 0 := hw.pt_ne_zero hp
  rw [Mmu.spaceShareUser, if_neg (by
    rintro (h | h | h | h | h)
    · exact hw.ne_zero hc h
    · exact hw.ne_zero hp h
    · exact hne h
    · exact hpt .code h
    · exact hpt .heap h)]
  obtain ⟨ty0, hw0, hsh0, hent0, hcow0⟩ := hw.leaveGroup hp
  have hro0 := hsh0.ro hro
  set m0 := m.leaveGroup p
  have hcp : c ∈ S.erase p := Finset.mem_erase.mpr ⟨hne, hc⟩
  rcases hg : m0.enterGroup p with ⟨g, m1⟩
  have henter := hw0.enterGroup hp (hcow0.imp id And.left)
  simp only [hg] at henter ⊢
  rcases henter with ⟨rfl, hb⟩ | ⟨hg0, ty1, hw1, hdata1, hatt1, hcow1, hsp1, hpt1, htb1, hme1,
    hgrp1, hgpt1⟩
  · -- no page for a group
    left
    rw [if_pos rfl]
    exact ⟨rfl, ty0, hb.wf hw0, hsh0.trans (hb.shown _), fun h i =>
      ((hb.shown S).entries p hp h i).trans (hent0 h i)⟩
  · right
    rw [if_neg hg0]
    refine ⟨rfl, ?_⟩
    have hg1 : ty1 g = some .group := hcow1 ▸ hw1.cow p hp hatt1.1
    have hgpt : ∀ h, (m1.groups g).pt h = (m0.spaces p).pt h := fun h => by
      rw [← hcow1, ← hatt1.2 h, hpt1 h]
    have hro1 : ∀ g', ty0 g' = some .group → Ro m1 ty1 g' := fun g' hg' _ h i => by
      rw [htb1, hgpt1 g' hg']
      exact hro0 g' hg' h i
    have hnew : Ro m1 ty1 g ∨ ∀ x ∈ S, x ≠ p → (m1.spaces x).cow ≠ g := by
      by_cases hg0' : ty0 g = some .group
      · exact Or.inl (hro1 g hg0')
      · refine Or.inr fun x hx hxp hcx => hg0' ?_
        rw [hsp1 x hxp] at hcx
        exact hcx ▸ hw0.cow x hx (hcx.symm ▸ hg0)
    obtain ⟨hro2, htab, hent1⟩ := hw1.protect hg1
      (fun g' he hg' => hro1 g' ((hgrp1 g' hg').resolve_left he) hg') hnew
    set m2 := m1.protect g with hm2
    have hsp2 : m2.spaces = m1.spaces := rfl
    have hsh2 : Shown m0 m2 ty0 ty1 (S.erase p) := by
      refine ⟨fun x hx => hsp1 x (Finset.ne_of_mem_erase hx), fun x hx h i => ?_,
        fun _ => hro2, hdata1, hme1⟩
      have hxp := Finset.ne_of_mem_erase hx
      rw [hent1 x (Finset.mem_of_mem_erase hx) hxp, entry, entry, hsp1 x hxp, htb1]
    have hentp : ∀ h i, entry m2 p h i = (entry m p h i).protect := by
      intro h i
      rw [entry, hsp2, hpt1, ← hgpt h, htab, htb1, hgpt h, ← hent0 h i, entry]
    have hw2 : Wf sz m2 ty1 S := hw1.congr rfl rfl rfl
    have hlink : m2.linkTables p = m2 := linkTables_eq_self (hw2.link p hp)
    have hc2 : m2.spaces c = m.spaces c := by rw [hsp2, hsp1 c hne, hsh0.spaces c hcp]
    obtain ⟨ty3, hw3, hsh3, hcow3, hpt3⟩ := hw2.attach hc (by rw [hc2]; exact h0) hg1
    have hpc : p ∈ S.erase c := Finset.mem_erase.mpr ⟨hne.symm, hp⟩
    have hgpt3 : ∀ h, ((m2.attach c g).groups g).pt h = (m2.groups g).pt h := by
      intro h
      change (Function.update m2.groups g _ g).pt h = _
      rw [Function.update_self]
      cases h <;> rfl
    rw [hlink]
    have hshown := ((hsh0.trans hsh2).mono (Finset.erase_subset c _)).trans
      (hsh3.mono (Finset.erase_subset_erase c (Finset.erase_subset p S)))
    refine ⟨ty3, hw3, hshown, ?_, ?_, ?_, ?_⟩
    · refine ⟨?_, fun h => ?_⟩
      · rw [hsh3.spaces p hpc]
        exact hatt1.1
      · rw [hsh3.spaces p hpc, show (m2.spaces p).cow = g from hcow1, hgpt3]
        exact (hatt1.2 h).trans (by rw [hcow1]; rfl)
    · refine ⟨fun h => hg0 (hcow3.symm.trans h), fun h => ?_⟩
      rw [hpt3 h, hcow3, hgpt3]
    · intro h i
      rw [hsh3.entries p hpc, hentp]
    · intro h i
      have htb3 : (m2.attach c g).tables = m2.tables := rfl
      rw [entry, hpt3, htb3, ← hentp, entry, hsp2, hpt1, ← hgpt h]
      rfl

/-! ## Leaving the group -/

/-- A table of one space alone was written. -/
theorem Wf.setTable_own (hw : Wf sz m ty S) (hs : s ∈ S) {h : Half}
    (ho : ty ((m.spaces s).pt h) = some (.own s h)) (t : Table) :
    Wf sz (m.setTable ((m.spaces s).pt h) t) ty S ∧
      Shown m (m.setTable ((m.spaces s).pt h) t) ty ty (S.erase s) ∧
      (∀ i, entry (m.setTable ((m.spaces s).pt h) t) s h i = t i) ∧
      ∀ h' i, h' ≠ h → entry (m.setTable ((m.spaces s).pt h) t) s h' i = entry m s h' i := by
  have other : ∀ x ∈ S, ∀ h', (x ≠ s ∨ h' ≠ h) → (m.spaces x).pt h' ≠ (m.spaces s).pt h := by
    intro x hx h' hne he
    obtain ⟨rfl, rfl | ⟨-, ha, -⟩⟩ := hw.table_eq hx hs he
    · exact hne.elim (fun h => h rfl) (fun h => h rfl)
    · exact hw.not_attached hs ho ha
  refine ⟨hw.congr rfl rfl rfl, ⟨fun _ _ => rfl, fun x hx h' i => ?_, fun hro g hg h' i => ?_,
    fun _ _ => Iff.rfl, rfl⟩, fun i => ?_, fun h' i hne => ?_⟩
  · rw [entry, entry, Mmu.setTable_spaces, Mmu.setTable_tables, Function.update_of_ne]
    exact other x (Finset.mem_of_mem_erase hx) h' (Or.inl (Finset.ne_of_mem_erase hx))
  · have hne : (m.groups g).pt h' ≠ (m.spaces s).pt h := by
      intro he
      have := hw.shared g hg h'
      rw [he, ho] at this
      cases this
    rw [Mmu.setTable_groups, Mmu.setTable_tables, Function.update_of_ne hne]
    exact hro g hg h' i
  · rw [entry, Mmu.setTable_spaces, Mmu.setTable_tables, Function.update_self]
  · rw [entry, entry, Mmu.setTable_spaces, Mmu.setTable_tables,
      Function.update_of_ne (other s hs h' (Or.inr hne))]

/-- **`map_page`** in a space with its own tables. -/
theorem Wf.mapPage (va frame : ℕ) (user : Bool) {h : Half} (hw : Wf sz m ty S) (hs : s ∈ S)
    (ho : ∀ h, ty ((m.spaces s).pt h) = some (.own s h)) (hva : Mmu.userTable va = some h)
    (hnew : ¬((entry m s h (Mmu.pteIndex va)).present = true ∧
      (entry m s h (Mmu.pteIndex va)).frame = Mmu.pageOf frame)) :
    ∃ m', m.mapPage s va frame user = (true, m') ∧ Wf sz m' ty S ∧
      Shown m m' ty ty (S.erase s) ∧ m'.spaces = m.spaces ∧ m'.heap = m.heap ∧
      m'.current = m.current ∧ m'.boot = m.boot ∧
      ∀ h' i, entry m' s h' i = if h' = h ∧ i = Mmu.pteIndex va
        then ⟨Mmu.pageOf frame, true, true, user⟩ else entry m s h' i := by
  refine ⟨m.setTable ((m.spaces s).pt h) (Function.update (m.tables ((m.spaces s).pt h))
    (Mmu.pteIndex va) ⟨Mmu.pageOf frame, true, true, user⟩), ?_, ?_⟩
  · rw [Mmu.mapPage, if_neg (hw.ne_zero hs), hva]
    exact if_neg hnew
  obtain ⟨h1, h2, h3, h4⟩ := hw.setTable_own hs (ho h) (Function.update
    (m.tables ((m.spaces s).pt h)) (Mmu.pteIndex va) ⟨Mmu.pageOf frame, true, true, user⟩)
  refine ⟨h1, h2, rfl, rfl, rfl, rfl, fun h' i => ?_⟩
  by_cases hh : h' = h
  · subst hh
    rw [h3]
    by_cases hi : i = Mmu.pteIndex va
    · subst hi
      rw [Function.update_self, if_pos ⟨rfl, rfl⟩]
    · rw [Function.update_of_ne hi, if_neg fun h => hi h.2, entry]
  · rw [h4 h' i hh, if_neg fun h => hh h.1]

theorem userTable_pageOf (va : ℕ) : Mmu.userTable (Mmu.pageOf va) = Mmu.userTable va := by
  have h := Nat.div_add_mod va 4096
  have hlt := Nat.mod_lt va (show 0 < 4096 by decide)
  rw [Mmu.userTable, Mmu.userTable, Mmu.pageOf]
  congr 1
  · rw [eq_iff_iff]
    omega
  · congr 1
    rw [eq_iff_iff]
    omega

theorem pteIndex_pageOf (va : ℕ) : Mmu.pteIndex (Mmu.pageOf va) = Mmu.pteIndex va := by
  rw [Mmu.pteIndex, Mmu.pteIndex, Fin.mk.injEq, Mmu.pageOf, Nat.mul_div_cancel _ (by decide)]

theorem pageOf_of_dvd {a : ℕ} (h : 4096 ∣ a) : Mmu.pageOf a = a := Nat.div_mul_cancel h

/-- The `n` pages from `va` on lie in the half `h`. -/
def InHalf (h : Half) (va n : ℕ) : Prop :=
  4096 ∣ va ∧ ∀ k < n, Mmu.userTable (va + k * 4096) = some h

theorem InHalf.mono {h : Half} {va n : ℕ} (hv : InHalf h va (n + 1)) : InHalf h va n :=
  ⟨hv.1, fun k hk => hv.2 k (Nat.lt_succ_of_lt hk)⟩

theorem pteIndex_inj {h : Half} {va n k l : ℕ} (hv : InHalf h va n) (hk : k < n) (hl : l < n)
    (he : Mmu.pteIndex (va + k * 4096) = Mmu.pteIndex (va + l * 4096)) : k = l := by
  obtain ⟨hdvd, hh⟩ := hv
  have h1 := hh k hk
  have h2 := hh l hl
  rw [Mmu.userTable] at h1 h2
  rw [Mmu.pteIndex, Mmu.pteIndex, Fin.mk.injEq] at he
  split at h1
  · next hr =>
    cases h1
    split at h2
    · omega
    · split at h2 <;> cases h2
  · split at h1
    · cases h1
      split at h2
      · cases h2
      · split at h2
        · omega
        · cases h2
    · cases h1

/-- **The loop of `map_image`** over fresh frames. -/
theorem Wf.mapRange {va pa : ℕ} {h : Half} (hw : Wf sz m ty S) (hs : s ∈ S)
    (ho : ∀ h, ty ((m.spaces s).pt h) = some (.own s h)) (hpa : 4096 ∣ pa) :
    ∀ n, InHalf h va n →
      (∀ i, (entry m s h i).present = true →
        (entry m s h i).frame + 4096 ≤ pa ∨ pa + n * 4096 ≤ (entry m s h i).frame) →
      ∃ m', m.mapRange s va pa n = (true, m') ∧ Wf sz m' ty S ∧ Shown m m' ty ty (S.erase s) ∧
        m'.spaces = m.spaces ∧ m'.heap = m.heap ∧ m'.current = m.current ∧ m'.boot = m.boot ∧
        (∀ h' i, h' ≠ h → entry m' s h' i = entry m s h' i) ∧
        (∀ k < n, entry m' s h (Mmu.pteIndex (va + k * 4096))
          = ⟨pa + k * 4096, true, true, true⟩) ∧
        ∀ i, (∀ k < n, i ≠ Mmu.pteIndex (va + k * 4096)) → entry m' s h i = entry m s h i := by
  intro n
  induction n with
  | zero =>
    intro _ _
    exact ⟨m, rfl, hw, ⟨fun _ _ => rfl, fun _ _ _ _ => rfl, id, fun _ _ => Iff.rfl, rfl⟩, rfl, rfl,
      rfl, rfl, fun _ _ _ => rfl, fun k hk => absurd hk (Nat.not_lt_zero k), fun _ _ => rfl⟩
  | succ n ih =>
    intro hv hapart
    obtain ⟨m1, hm1, hw1, hsh1, hsp1, hhe1, hcu1, hbo1, hoth1, hin1, hout1⟩ := ih hv.mono
      fun i hi => (hapart i hi).imp_right fun hle => Nat.le_trans
        (Nat.add_le_add_left (Nat.mul_le_mul_right 4096 (Nat.le_succ n)) pa) hle
    have hpage : Mmu.pageOf (pa + n * 4096) = pa + n * 4096 :=
      pageOf_of_dvd (by omega)
    have hlast : ∀ k < n, Mmu.pteIndex (va + n * 4096) ≠ Mmu.pteIndex (va + k * 4096) :=
      fun k hk he => Nat.ne_of_gt hk
        (pteIndex_inj hv (Nat.lt_succ_self n) (Nat.lt_succ_of_lt hk) he)
    have hold := hout1 (Mmu.pteIndex (va + n * 4096)) hlast
    obtain ⟨m2, hm2, hw2, hsh2, hsp2, hhe2, hcu2, hbo2, hent2⟩ := Wf.mapPage (va + n * 4096)
      (pa + n * 4096) true hw1 hs (by rw [hsp1]; exact ho) (hv.2 n (Nat.lt_succ_self n)) (by
        rw [hold, hpage]
        rintro ⟨hp, hf⟩
        have := hapart _ hp
        omega)
    refine ⟨m2, ?_, hw2, hsh1.trans hsh2, hsp2.trans hsp1, hhe2.trans hhe1,
      hcu2.trans hcu1, hbo2.trans hbo1, fun h' i hne => ?_, fun k hk => ?_, fun i hi => ?_⟩
    · rw [Mmu.mapRange, hm1]
      exact hm2
    · rw [hent2, if_neg fun h => hne h.1, hoth1 h' i hne]
    · rw [hent2, hpage]
      rcases Nat.lt_succ_iff_lt_or_eq.mp hk with hk | rfl
      · rw [if_neg fun h => hlast k hk h.2.symm, hin1 k hk]
      · rw [if_pos ⟨rfl, rfl⟩]
    · rw [hent2, if_neg fun h => hi n (Nat.lt_succ_self n) h.2]
      exact hout1 i fun k hk => hi k (Nat.lt_succ_of_lt hk)

/-- **A space that is attached gets tables of its own**, with the entries it had. -/
theorem Wf.ownTables {ty₁ : ℕ → Option (Kind D)} {code heap : ℕ} (hw : Wf sz m ty S) (hs : s ∈ S)
    (hatt : Attached m s)
    (hcode : Taken ty ty₁ code (.own s .code)) (hheap : Taken ty₁ ty' heap (.own s .heap))
    (htyped : Typed (Kind.bytes sz) m'.heap ty')
    (hsp : m'.spaces = Function.update m.spaces s
      { m.spaces s with linkCode := code, linkHeap := heap, ptCode := code, ptHeap := heap })
    (hgr : m'.groups = m.groups)
    (htb : m'.tables = Function.update (Function.update m.tables code
      (m.tables (m.groups (m.spaces s).cow).ptCode)) heap
      (m.tables (m.groups (m.spaces s).cow).ptHeap)) (hmem : m'.mem = m.mem) :
    Wf sz m' ty' S ∧ Grown s ty ty' ∧ Shown m m' ty ty' (S.erase s) ∧
      (m'.spaces s).cow = (m.spaces s).cow ∧
      (∀ h, ty' ((m'.spaces s).pt h) = some (.own s h)) ∧
      ∀ h i, entry m' s h i = entry m s h i := by
  have hg : Grown s ty ty' := ((Grown.refl s ty).take hcode (Or.inr (Or.inr ⟨_, rfl⟩))).take hheap
    (Or.inr (Or.inr ⟨_, rfl⟩))
  have hne : code ≠ heap := hheap.ne hcode.self
  have hs' : m'.spaces s =
      { m.spaces s with linkCode := code, linkHeap := heap, ptCode := code, ptHeap := heap } := by
    rw [hsp, Function.update_self]
  have hx : ∀ x ∈ S.erase s, m'.spaces x = m.spaces x := fun x hx => by
    rw [hsp, Function.update_of_ne (Finset.ne_of_mem_erase hx)]
  have htables : ∀ q k, ty q = some k → m'.tables q = m.tables q := fun q k hq => by
    rw [htb, Function.update_of_ne (hheap.ne (hcode.old q k hq)),
      Function.update_of_ne (hcode.ne hq)]
  have hown : ∀ h, ty' ((m'.spaces s).pt h) = some (.own s h) := by
    intro h
    rw [hs']
    cases h with
    | code => exact hheap.old _ _ hcode.self
    | heap => exact hheap.self
  have hwe : Wf sz m' ty' (S.erase s) :=
    (hw.subset (Finset.erase_subset s S)).grown hg htyped hx hgr
  have hwS := hwe.insert (Finset.notMem_erase s S) (hg.old _ _ (hw.space s hs))
    (fun i => by
      rw [hs']
      exact hg.old _ _ (hw.pd s hs i))
    (fun h => by
      rw [hs']
      cases h <;> rfl)
    (Or.inr hown)
    (fun _ => by
      rw [hs']
      refine ⟨hg.old _ _ (hw.cow s hs hatt.1), ?_⟩
      have h1 := members_erase (m := m) hs (m.spaces s).cow
      have h2 := hw.refs _ (hw.cow s hs hatt.1)
      rw [if_pos rfl] at h1
      rw [members_congr hx, hgr]
      change (members m (S.erase s) (m.spaces s).cow).card + 1 ≤ (m.groups (m.spaces s).cow).refs
      omega)
  rw [Finset.insert_erase hs] at hwS
  refine ⟨hwS, hg, hw.shown_of_grown hg (Finset.erase_subset s S) hx hgr hmem htables,
    by rw [hs'], hown,
    fun h i => ?_⟩
  rw [entry, entry, hs', htb, hatt.2 h]
  cases h with
  | code =>
    change Function.update (Function.update m.tables code _) heap _ code i = _
    rw [Function.update_of_ne hne, Function.update_self]
    rfl
  | heap =>
    change Function.update (Function.update m.tables code _) heap _ heap i = _
    rw [Function.update_self]
    rfl

/-- **`unshare`** of a space in a group: it fails with nothing changed but the heap, or the space
has tables of its own with the entries it had. -/
theorem Wf.unshare (hw : Wf sz m ty S) (hs : s ∈ S) (hc : (m.spaces s).cow ≠ 0) :
    ((m.unshare s).1 = false ∧ Built sz m (m.unshare s).2 ty) ∨
      ((m.unshare s).1 = true ∧ ∃ ty', Wf sz (m.unshare s).2 ty' S ∧ Grown s ty ty' ∧
        Shown m (m.unshare s).2 ty ty' (S.erase s) ∧
        ((m.unshare s).2.spaces s).cow = (m.spaces s).cow ∧
        (∀ h, ty' (((m.unshare s).2.spaces s).pt h) = some (.own s h)) ∧
        ∀ h i, entry (m.unshare s).2 s h i = entry m s h i) := by
  rw [Mmu.unshare, if_neg hc]
  by_cases hp : (m.spaces s).ptCode ≠ (m.groups (m.spaces s).cow).ptCode
  · rw [if_pos hp]
    exact Or.inr ⟨rfl, ty, hw, .refl s ty, ⟨fun _ _ => rfl, fun _ _ _ _ => rfl, id,
      fun _ _ => Iff.rfl, rfl⟩, rfl,
      (hw.table s hs).resolve_left fun ha => hp (ha.2 .code), fun _ _ => rfl⟩
  rw [if_neg hp]
  have hatt : Attached m s := (hw.attached_iff hs hc).mpr (not_not.mp hp)
  rcases h5 : m.kframeAlloc with ⟨code, m5⟩
  obtain ⟨l5, t5⟩ := hw.built.kframeAlloc h5
  rcases h6 : m5.kframeAlloc with ⟨heap, m6⟩
  obtain ⟨l6, t6⟩ := l5.kframeAlloc h6
  simp only [h6]
  split
  · next hz =>
    left
    refine ⟨rfl, ?_⟩
    -- what was taken is given back
    by_cases hcode : code = 0
    · subst hcode
      by_cases hheap : heap = 0
      · subst hheap
        exact l6.free_null.free_null
      · obtain ⟨ty6, k6, b6⟩ := t6 hheap (.own s .heap) rfl
        exact b6.free_null.free k6
    · obtain rfl : heap = 0 := hz.resolve_left hcode
      obtain ⟨ty5, k5, b5⟩ := t5 hcode (.own s .code) rfl
      exact ((b5.kframeAlloc h6).1.free k5).free_null
  · next hz =>
    right
    obtain ⟨hcode, hheap⟩ := not_or.mp hz
    obtain ⟨ty5, k5, b5⟩ := t5 hcode (.own s .code) rfl
    obtain ⟨ty6, k6, b6⟩ := (b5.kframeAlloc h6).2 hheap (.own s .heap) rfl
    have hm6 : m6 = m.setHeap m6.heap := b6.heap
    have hsp6 : m6.spaces = m.spaces := by rw [hm6]; rfl
    have hgr6 : m6.groups = m.groups := by rw [hm6]; rfl
    have htb6 : m6.tables = m.tables := by rw [hm6]; rfl
    have hme6 : m6.mem = m.mem := by rw [hm6]; rfl
    set g := (m.spaces s).cow with hg
    refine ⟨rfl, ?_⟩
    set m7 := m6.setTable code (m6.tables (m6.groups g).ptCode) with hm7
    set m8 := m7.setTable heap (m7.tables (m7.groups g).ptHeap) with hm8
    set m9 := (m8.setSpace s { m8.spaces s with ptCode := code, ptHeap := heap }).linkTables s
      with hm9
    have hsp9 : m9.spaces = Function.update m.spaces s
        { m.spaces s with linkCode := code, linkHeap := heap, ptCode := code, ptHeap := heap } := by
      rw [hm9, Mmu.linkTables, Mmu.setSpace_spaces, Mmu.setSpace_spaces, Function.update_self,
        Function.update_idem]
      exact congrArg (fun f => Function.update f s { f s with
        linkCode := code, linkHeap := heap, ptCode := code, ptHeap := heap }) hsp6
    have htb9 : m9.tables = Function.update (Function.update m.tables code
        (m.tables (m.groups g).ptCode)) heap (m.tables (m.groups g).ptHeap) := by
      have hold : (m.groups g).ptHeap ≠ code :=
        hw.group_pt_ne (hw.cow s hs hc) k5.fresh .heap
      change Function.update (Function.update m6.tables code _) heap
        (Function.update m6.tables code _ (m6.groups g).ptHeap) = _
      rw [hgr6, htb6, Function.update_of_ne hold]
    exact ⟨ty6, hw.ownTables hs hatt k5 k6 b6.typed hsp9 hgr6 htb9 hme6⟩

/-- The frame lies in data that is handed out. -/
def InData (sz : D → ℕ) (ty : ℕ → Option (Kind D)) (f : ℕ) : Prop :=
  ∃ b d, ty b = some (.data d) ∧ b ≤ f ∧ f + 4096 ≤ b + sz d

/-- What a handled fault leaves: the page is a private copy, everything else looks as before. -/
structure Copied (sz : D → ℕ) (m m' : Mmu H) (ty : ℕ → Option (Kind D)) (S : Finset ℕ) (s : ℕ)
    (h : Half) (i : Fin 512) (nf : ℕ) (d : D) : Prop where
  /-- The frame was not out, -/
  fresh : ty nf = none
  /-- it is a page, -/
  dvd : 4096 ∣ nf
  /-- and it meets nothing that is out. -/
  apart : ∀ q k, ty q = some k → q + k.bytes sz ≤ nf ∨ nf + 4096 ≤ q
  /-- All is in order. The frame holds the copy, and the space has tables of its own. -/
  wf : ∃ ty', Wf sz m' ty' S ∧ (∀ g, Ro m' ty' g) ∧
    (∀ p e, ty' p = some (.data e) ↔ ty p = some (.data e) ∨ p = nf ∧ e = d) ∧
    ∀ h, ty' ((m'.spaces s).pt h) = some (.own s h)
  /-- The other spaces are as they were. -/
  spaces : ∀ x ∈ S, x ≠ s → m'.spaces x = m.spaces x
  /-- The space is in the group it was in. -/
  cow : (m'.spaces s).cow = (m.spaces s).cow
  /-- The others map what they did. -/
  others : ∀ x ∈ S, x ≠ s → ∀ h' j, entry m' x h' j = entry m x h' j
  /-- Only the page that was stored to is mapped elsewhere. -/
  self : ∀ h' j, entry m' s h' j
    = if h' = h ∧ j = i then ⟨nf, true, true, true⟩ else entry m s h' j
  /-- The frame has the bytes of the shared one. -/
  mem : m'.mem = Bytes.memcpy m.mem nf m.mem (entry m s h i).frame 4096

/-- **`space_cow_fault`** refuses with the spaces as they were, or gives the space a copy of the
page, in tables of its own. -/
theorem Wf.spaceCowFault (hw : Wf sz m ty S) (va : ℕ) (hro : ∀ g, Ro m ty g) (hs : s ∈ S)
    (hdata : ∀ h i, (entry m s h i).present = true → InData sz ty (entry m s h i).frame)
    {d : D} (hd : sz d = 4096) :
    ((m.spaceCowFault s va).1 = false ∧ Wf sz (m.spaceCowFault s va).2 ty S ∧
        (m.spaceCowFault s va).2.spaces = m.spaces ∧ (m.spaceCowFault s va).2.tables = m.tables ∧
        (m.spaceCowFault s va).2.groups = m.groups) ∨
      ((m.spaceCowFault s va).1 = true ∧ ∃ h nf, Mmu.userTable va = some h ∧
        (m.spaces s).cow ≠ 0 ∧ (entry m s h (Mmu.pteIndex va)).present = true ∧
        Copied sz m (m.spaceCowFault s va).2 ty S s h (Mmu.pteIndex va) nf d) := by
  rw [Mmu.spaceCowFault]
  by_cases hc : (m.spaces s).cow = 0
  · rw [if_pos (Or.inr hc)]
    exact Or.inl ⟨rfl, hw, rfl, rfl, rfl⟩
  rw [if_neg (not_or.mpr ⟨hw.ne_zero hs, hc⟩)]
  simp only [userTable_pageOf, pteIndex_pageOf]
  cases hva : Mmu.userTable va with
  | none => exact Or.inl ⟨rfl, hw, rfl, rfl, rfl⟩
  | some h =>
    simp only
    split
    · exact Or.inl ⟨rfl, hw, rfl, rfl, rfl⟩
    next hent =>
    have hpres : (entry m s h (Mmu.pteIndex va)).present = true := by
      rw [entry]
      by_contra hn
      exact hent (by simp [Bool.not_eq_true _ ▸ hn])
    rcases hk : m.kframeAlloc with ⟨nf, m1⟩
    obtain ⟨l1, t1⟩ := hw.built.kframeAlloc hk
    have hm1 : m1 = m.setHeap m1.heap := l1.heap
    simp only
    split
    · left
      exact ⟨rfl, l1.wf hw, by rw [hm1]; rfl, by rw [hm1]; rfl, by rw [hm1]; rfl⟩
    next hnf =>
    obtain ⟨ty1, k1, b1⟩ := t1 hnf (.data d) hd
    obtain ⟨hdvd, hapart⟩ := hw.pages_apart (n := 1) (by decide) hk hnf
    obtain ⟨hw1, hro1⟩ := hw.data k1 b1
    set m2 := m1.setMem (Bytes.memcpy m1.mem nf m1.mem
      (m.tables ((m.spaces s).pt h) (Mmu.pteIndex va)).frame 4096) with hm2
    have hsp2 : m2.spaces = m.spaces := by rw [hm2, hm1]; rfl
    have htb2 : m2.tables = m.tables := by rw [hm2, hm1]; rfl
    have hgr2 : m2.groups = m.groups := by rw [hm2, hm1]; rfl
    have hme2 : m2.mem = Bytes.memcpy m.mem nf m.mem
        (entry m s h (Mmu.pteIndex va)).frame 4096 := by
      rw [hm2, hm1]
      rfl
    have hw2 : Wf sz m2 ty1 S := hw1.congr rfl rfl rfl
    have hro2 : ∀ g, Ro m2 ty1 g := fun g => hro1 hro g
    have hent2 : ∀ x h i, entry m2 x h i = entry m x h i := fun x h i => by
      rw [entry, entry, hsp2, htb2]
    have hun := hw2.unshare hs (by rw [hsp2]; exact hc)
    rcases hu : m2.unshare s with ⟨ok, m3⟩
    rw [hu] at hun
    rcases hun with ⟨rfl, hb3⟩ | ⟨rfl, ty3, hw3, hg3, hsh3, hcow3, hown3, hent3⟩
    · left
      simp only
      have hm3 : m3 = m2.setHeap m3.heap := hb3.heap
      have hsp3 : m3.spaces = m.spaces := by rw [hm3]; exact hsp2
      have htb3 : m3.tables = m.tables := by rw [hm3]; exact htb2
      have hgr3 : m3.groups = m.groups := by rw [hm3]; exact hgr2
      have hwf : Wf sz (m3.kframeFree nf) ty S := hw.rebuilt (hb3.free k1).typed hsp3 hgr3
      exact ⟨trivial, hwf, hsp3, htb3, hgr3⟩
    · right
      simp only
      have hva' : Mmu.userTable (Mmu.pageOf va) = some h := by rw [userTable_pageOf, hva]
      -- the copy is not the page it is a copy of
      obtain ⟨m4, hm4, hw4, hsh4, hsp4, -, -, -, hent4⟩ := Wf.mapPage (Mmu.pageOf va) nf true hw3
        hs hown3 hva' (by
          rw [pteIndex_pageOf, hent3, hent2, pageOf_of_dvd hdvd]
          rintro ⟨-, he⟩
          obtain ⟨b, e, hb, h1, h2⟩ := hdata h _ hpres
          have := hapart b _ hb
          rw [he] at h1 h2
          change b + sz e ≤ nf ∨ nf + 4096 ≤ b at this
          omega)
      rw [hm4]
      refine ⟨trivial, h, nf, rfl, hc, hpres, ?_⟩
      have hsh := hsh3.trans hsh4
      refine ⟨k1.fresh, hdvd, hapart, ⟨ty3, hw4, hsh.ro hro2, fun p e => ?_, fun h => ?_⟩,
        fun x hx hxs => ?_,
        ?_, fun x hx hxs h' j => ?_, fun h' j => ?_, ?_⟩
      · rw [hsh3.data p e]
        constructor
        · intro hp
          refine (k1.new p _ hp).imp_right fun h => ⟨h.1, ?_⟩
          exact Kind.data.inj h.2
        · rintro (hp | ⟨rfl, rfl⟩)
          · exact k1.old p _ hp
          · exact k1.self
      · rw [hsp4]
        exact hown3 h
      · rw [hsp4, hsh3.spaces x (Finset.mem_erase.mpr ⟨hxs, hx⟩), hsp2]
      · rw [hsp4]
        exact hcow3.trans (by rw [hsp2])
      · have hx' := Finset.mem_erase.mpr ⟨hxs, hx⟩
        rw [hsh.entries x hx', hent2]
      · rw [hent4, pteIndex_pageOf, pageOf_of_dvd hdvd, hent3, hent2]
      · rw [hsh.mem, hme2]

end Paging

end Aurisys
