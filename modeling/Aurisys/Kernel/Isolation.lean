import Aurisys.Heap.Frames
import Aurisys.Kernel.Sharing
import Mathlib.Data.List.Basic

/-!
# Copy on write is a deep copy

A system is the memory management together with the spaces in use. Spaces are made, given fresh
frames, shared with `space_share_user`, read and written by user code, and destroyed, in any order;
a space may be the parent of many, and a child may be a parent.

## What sharing is for

The purpose of the sharing is that nobody notices it: every space should see a memory of its own,
and a child should start with a copy of the memory of its parent. `deep` says this, on memories that
share nothing. The simulation between the two keeps a single fact about writing: a page that is
mapped writable is mapped once.

## Main definitions

* `Step`, `Runs` — the system
* `deep` — the memory every space should see
* `Iso` — the invariant

## Main results

* `cow_isolation` — after any run every space reads what it would read from a deep copy
-/

namespace Aurisys

open Bytes Pages

namespace Paging

variable {H : Type} [PageAlloc H]

/-- The memory management, and the spaces in use. -/
structure Sys (H : Type) where
  m : Mmu H
  live : Finset ℕ

/-- What happens to the spaces. -/
inductive Event where
  | create (s : ℕ)
  /-- `n` pages from `va` on are mapped on fresh frames, which hold `c`. -/
  | map (s va n : ℕ) (c : ℕ → UInt8)
  | share (parent child : ℕ)
  | load (s va : ℕ) (v : UInt8)
  | store (s va : ℕ) (v : UInt8)
  | destroy (s : ℕ)

/-- One event. Frames are mapped only before a space is shared, and the child of
`space_share_user` is not yet in a group: that is how `exec` and `fork_user` use the two. -/
inductive Step : Sys H → Event → Sys H → Prop where
  | create {m m' : Mmu H} {S : Finset ℕ} {s : ℕ} (hc : m.spaceCreate = (s, m')) (h0 : s ≠ 0) :
      Step ⟨m, S⟩ (.create s) ⟨m', insert s S⟩
  | map {m m₁ m' : Mmu H} {S : Finset ℕ} {s va n pa : ℕ} {h : Half} (hs : s ∈ S)
      (hcow : (m.spaces s).cow = 0) (hn : n < 2 ^ 16) (hva : InHalf h va n)
      (ha : m.kframeAllocN n = (pa, m₁)) (h0 : pa ≠ 0) (hm : m₁.mapRange s va pa n = (true, m')) :
      Step ⟨m, S⟩ (.map s va n fun k => m.mem (pa + k)) ⟨m', S⟩
  | share {m m' : Mmu H} {S : Finset ℕ} {p c : ℕ} (hp : p ∈ S) (hc : c ∈ S) (hne : c ≠ p)
      (hcow : (m.spaces c).cow = 0) (hsh : m.spaceShareUser c p = (true, m')) :
      Step ⟨m, S⟩ (.share p c) ⟨m', S⟩
  | load {m : Mmu H} {S : Finset ℕ} {s va : ℕ} {v : UInt8} (hs : s ∈ S)
      (hl : m.load s va = some v) : Step ⟨m, S⟩ (.load s va v) ⟨m, S⟩
  | store {m m' : Mmu H} {S : Finset ℕ} {s va : ℕ} {v : UInt8} (hs : s ∈ S)
      (hst : m.store s va v = some m') : Step ⟨m, S⟩ (.store s va v) ⟨m', S⟩
  | destroy {m : Mmu H} {S : Finset ℕ} {s : ℕ} (hs : s ∈ S) :
      Step ⟨m, S⟩ (.destroy s) ⟨m.spaceDestroy s, S.erase s⟩

/-- Events in a row. -/
inductive Runs : Sys H → List Event → Sys H → Prop where
  | nil (σ : Sys H) : Runs σ [] σ
  | cons {σ σ' σ'' : Sys H} {e : Event} {es : List Event} (h : Step σ e σ') (hs : Runs σ' es σ'') :
      Runs σ (e :: es) σ''

/-- A memory for every space: the byte at an address, if it is mapped. -/
abbrev Memories := ℕ → ℕ → Option UInt8

/-- What an event does to memories that share nothing. -/
def deep (A : Memories) : Event → Memories
  | .create s => Function.update A s fun _ => none
  | .map s va n c => Function.update A s fun a =>
      if va ≤ a ∧ a < va + n * 4096 then some (c (a - va)) else A s a
  | .share p c => Function.update A c (A p)
  | .load _ _ _ => A
  | .store s va v => Function.update A s (Function.update (A s) va (some v))
  | .destroy _ => A

/-! ## Reading and writing through the entries -/

variable {m m' : Mmu H} {ty ty' : ℕ → Option (Kind ℕ)} {S : Finset ℕ} {s p : ℕ} {A : Memories}

/-- The byte behind an entry. -/
def readPte (mem : Bytes) (e : Pte) (off : ℕ) : Option UInt8 :=
  if e.present && e.user then some (mem (e.frame + off)) else none

theorem load_eq (hw : Wf id m ty S) (hs : s ∈ S) (va : ℕ) : m.load s va =
    (Mmu.userTable va).bind fun h => readPte m.mem (entry m s h (Mmu.pteIndex va)) (va % 4096) := by
  rw [Mmu.load, Mmu.walk]
  cases Mmu.userTable va with
  | none => rfl
  | some h =>
    rw [Option.map_some, Option.bind_some, hw.link s hs h]
    rfl

theorem write_eq_some (hw : Wf id m ty S) (hs : s ∈ S) {va : ℕ} {v : UInt8} :
    m.write s va v = some m' ↔ ∃ h, Mmu.userTable va = some h ∧
      (entry m s h (Mmu.pteIndex va)).present = true ∧ (entry m s h (Mmu.pteIndex va)).user = true ∧
      (entry m s h (Mmu.pteIndex va)).rw = true ∧ m' = m.setMem
        (Function.update m.mem ((entry m s h (Mmu.pteIndex va)).frame + va % 4096) v) := by
  rw [Mmu.write, Mmu.walk]
  cases Mmu.userTable va with
  | none => simp
  | some h =>
    simp only [Option.map_some, hw.link s hs h, Bool.and_eq_true, Option.some.injEq,
      exists_eq_left']
    rw [← entry]
    split
    · next hc =>
      rw [Option.some.injEq]
      exact ⟨fun he => ⟨hc.1.1, hc.1.2, hc.2, he.symm⟩, fun he => he.2.2.2.symm⟩
    · next hc =>
      exact ⟨fun he => (by cases he), fun he => absurd ⟨⟨he.1, he.2.1⟩, he.2.2.1⟩ hc⟩

/-- An address is its half, its page and its offset. -/
theorem va_ext {va va' : ℕ} {h : Half} (hv : Mmu.userTable va = some h)
    (hv' : Mmu.userTable va' = some h) (hi : Mmu.pteIndex va = Mmu.pteIndex va')
    (ho : va % 4096 = va' % 4096) : va = va' := by
  rw [Mmu.userTable] at hv hv'
  rw [Mmu.pteIndex, Mmu.pteIndex, Fin.mk.injEq] at hi
  split at hv
  · cases hv
    split at hv'
    · omega
    · split at hv' <;> cases hv'
  · split at hv
    · cases hv
      split at hv'
      · cases hv'
      · split at hv'
        · omega
        · cases hv'
    · cases hv

/-! ## The invariant -/

/-- The spaces are in order, every mapped page is a user page in memory that is handed out, a read
only page belongs to a group, and a writable page is mapped once. -/
structure Iso (m : Mmu H) (ty : ℕ → Option (Kind ℕ)) (S : Finset ℕ) : Prop where
  /-- The spaces are in order. -/
  wf : Wf id m ty S
  /-- What a group has is read only. -/
  ro : ∀ g, Ro m ty g
  /-- A mapped page is handed out, and the user's. -/
  data : ∀ s ∈ S, ∀ h i, (entry m s h i).present = true →
    InData id ty (entry m s h i).frame ∧ 4096 ∣ (entry m s h i).frame ∧ (entry m s h i).user = true
  /-- A page that is read only is a group's. -/
  cow : ∀ s ∈ S, ∀ h i, (entry m s h i).present = true → (entry m s h i).rw = false →
    (m.spaces s).cow ≠ 0
  /-- A page that can be written is mapped in one place. -/
  once : ∀ s ∈ S, ∀ h i, (entry m s h i).present = true → (entry m s h i).rw = true →
    ∀ s' ∈ S, ∀ h' i', (entry m s' h' i').present = true →
      (entry m s' h' i').frame = (entry m s h i).frame → s' = s ∧ h' = h ∧ i' = i

/-- Every space reads what it has in the memories `A`. -/
def Sees (m : Mmu H) (S : Finset ℕ) (A : Memories) : Prop := ∀ s ∈ S, ∀ va, m.load s va = A s va

theorem InData.mono {f : ℕ} (h : InData id ty f)
    (hd : ∀ p d, ty p = some (.data d) → ty' p = some (.data d)) : InData id ty' f := by
  obtain ⟨b, d, hb, hf⟩ := h
  exact ⟨b, d, hd b d hb, hf⟩

/-- Nothing changed for the spaces of `S'` but the heap. -/
theorem Iso.of_shown {S' : Finset ℕ} (hi : Iso m ty S) (hS : S' ⊆ S) (hw : Wf id m' ty' S')
    (hsh : Shown m m' ty ty' S') : Iso m' ty' S' := by
  refine ⟨hw, hsh.ro hi.ro, fun x hx h i => ?_, fun x hx h i => ?_,
    fun x hx h i hp hr y hy h' i' => ?_⟩
  · rw [hsh.entries x hx]
    intro hp
    obtain ⟨h1, h2, h3⟩ := hi.data x (hS hx) h i hp
    exact ⟨h1.mono fun p d => (hsh.data p d).mpr, h2, h3⟩
  · rw [hsh.entries x hx, hsh.spaces x hx]
    exact hi.cow x (hS hx) h i
  · rw [hsh.entries x hx] at hp hr ⊢
    rw [hsh.entries y hy]
    exact hi.once x (hS hx) h i hp hr y (hS hy) h' i'

theorem Sees.of_shown {S' : Finset ℕ} (hA : Sees m S A) (hw : Wf id m ty S) (hS : S' ⊆ S)
    (hw' : Wf id m' ty' S) (hsh : Shown m m' ty ty' S') : Sees m' S' A := by
  intro x hx va
  rw [load_eq hw' (hS hx), hsh.mem, ← hA x (hS hx), load_eq hw (hS hx)]
  simp only [hsh.entries x hx]

/-! ## One event -/

theorem Iso.create (hi : Iso m ty S) (hA : Sees m S A) (hc : m.spaceCreate = (s, m'))
    (h0 : s ≠ 0) :
    ∃ ty', Iso m' ty' (insert s S) ∧ Sees m' (insert s S) (deep A (.create s)) := by
  rcases hi.wf.spaceCreate with ⟨hz, -⟩ | ⟨-, hcr⟩
  · rw [hc] at hz
    exact absurd hz h0
  rw [hc] at hcr
  obtain ⟨hfresh, ⟨ty', hw', hsh⟩, -, hempty⟩ := hcr
  have hwS : Wf id m' ty' S := hw'.subset (Finset.subset_insert s S)
  have hiS : Iso m' ty' S := hi.of_shown subset_rfl hwS hsh
  have hnp : ∀ h i, (entry m' s h i).present ≠ true := fun h i => by
    rw [hempty]
    exact Bool.false_ne_true
  refine ⟨ty', ⟨hw', hiS.ro, fun x hx h i hp => ?_, fun x hx h i hp => ?_, ?_⟩, ?_⟩
  · rcases Finset.mem_insert.mp hx with rfl | hx
    · exact absurd hp (hnp h i)
    · exact hiS.data x hx h i hp
  · rcases Finset.mem_insert.mp hx with rfl | hx
    · exact absurd hp (hnp h i)
    · exact hiS.cow x hx h i hp
  · intro x hx h i hp hr y hy h' i' hp'
    rcases Finset.mem_insert.mp hx with rfl | hx
    · exact absurd hp (hnp h i)
    rcases Finset.mem_insert.mp hy with rfl | hy
    · exact absurd hp' (hnp h' i')
    · exact hiS.once x hx h i hp hr y hy h' i' hp'
  · intro x hx va
    rcases Finset.mem_insert.mp hx with rfl | hx
    · rw [deep, Function.update_self, load_eq hw' (Finset.mem_insert_self _ S)]
      cases Mmu.userTable va with
      | none => rfl
      | some h =>
        rw [Option.bind_some, hempty]
        rfl
    · have hne : x ≠ s := fun h => hfresh (h ▸ hx)
      rw [deep, Function.update_of_ne hne]
      exact hA.of_shown hi.wf subset_rfl hwS hsh x hx va

/-- A read does not see the write bit. -/
theorem readPte_protect (mem : Bytes) (e : Pte) (off : ℕ) :
    readPte mem e.protect off = readPte mem e off := by
  rw [readPte, readPte, Pte.present_protect, Pte.user_protect, Pte.frame_protect]

theorem Iso.share {c : ℕ} (hi : Iso m ty S) (hA : Sees m S A) (hp : p ∈ S) (hc : c ∈ S)
    (hne : c ≠ p) (hcow : (m.spaces c).cow = 0) (hsh : m.spaceShareUser c p = (true, m')) :
    ∃ ty', Iso m' ty' S ∧ Sees m' S (deep A (.share p c)) := by
  rcases hi.wf.spaceShareUser hi.ro hp hc hne hcow with ⟨hf, -⟩ | ⟨-, ty', hw', hsh', hap, hac, hep,
    hec⟩
  · rw [hsh] at hf
    cases hf
  simp only [hsh] at hw' hsh' hap hac hep hec
  have hro' := hsh'.ro hi.ro
  -- every space is the parent, the child, or as it was
  have cases : ∀ x ∈ S, (x = p ∨ x = c) ∧ Attached m' x ∧
      (∀ h i, entry m' x h i = (entry m p h i).protect) ∨
      x ≠ c ∧ x ≠ p ∧ m'.spaces x = m.spaces x ∧ ∀ h i, entry m' x h i = entry m x h i := by
    intro x hx
    by_cases hxp : x = p
    · subst hxp
      exact Or.inl ⟨Or.inl rfl, hap, hep⟩
    · by_cases hxc : x = c
      · subst hxc
        exact Or.inl ⟨Or.inr rfl, hac, hec⟩
      · have hx' : x ∈ (S.erase p).erase c :=
          Finset.mem_erase.mpr ⟨hxc, Finset.mem_erase.mpr ⟨hxp, hx⟩⟩
        exact Or.inr ⟨hxc, hxp, hsh'.spaces x hx', hsh'.entries x hx'⟩
  have hdata : ∀ {f}, InData id ty f → InData id ty' f := fun h =>
    h.mono fun q d => (hsh'.data q d).mpr
  refine ⟨ty', ⟨hw', hro', fun x hx h i => ?_, fun x hx h i => ?_, ?_⟩, fun x hx va => ?_⟩
  · rcases cases x hx with ⟨-, -, he⟩ | ⟨-, -, -, he⟩
    · rw [he, Pte.present_protect, Pte.frame_protect, Pte.user_protect]
      exact fun hpres => ⟨hdata (hi.data p hp h i hpres).1, (hi.data p hp h i hpres).2⟩
    · rw [he]
      exact fun hpres => ⟨hdata (hi.data x hx h i hpres).1, (hi.data x hx h i hpres).2⟩
  · rcases cases x hx with ⟨-, ha, -⟩ | ⟨-, -, hs, he⟩
    · exact fun _ _ => ha.1
    · rw [he, hs]
      exact hi.cow x hx h i
  · intro x hx h i hpres hrw y hy h' i' hpres' hf
    rcases cases x hx with ⟨-, -, he⟩ | ⟨-, hxp, -, he⟩
    · rw [he, Pte.present_protect] at hpres
      rw [he, Pte.rw_protect hpres] at hrw
      cases hrw
    · rw [he] at hpres hrw hf
      rcases cases y hy with ⟨-, -, he'⟩ | ⟨-, -, -, he'⟩
      · rw [he', Pte.present_protect] at hpres'
        rw [he', Pte.frame_protect] at hf
        exact absurd (hi.once x hx h i hpres hrw p hp h' i' hpres' hf).1.symm hxp
      · rw [he'] at hpres' hf
        exact hi.once x hx h i hpres hrw y hy h' i' hpres' hf
  · rw [load_eq hw' hx, hsh'.mem]
    rcases cases x hx with ⟨hx', -, he⟩ | ⟨hxc, -, -, he⟩
    · have hAx : deep A (.share p c) x = A p := by
        rw [deep]
        rcases hx' with rfl | rfl
        · rw [Function.update_of_ne (Ne.symm hne)]
        · rw [Function.update_self]
      rw [hAx, ← hA p hp, load_eq hi.wf hp]
      simp only [he, readPte_protect]
    · rw [deep, Function.update_of_ne hxc, ← hA x hx, load_eq hi.wf hx]
      simp only [he]

/-- Data that is handed out is apart from a new run of pages. -/
theorem InData.apart {f q n : ℕ} (h : InData id ty f)
    (hq : ∀ b k, ty b = some k → b + k.bytes id ≤ q ∨ q + n ≤ b) :
    f + 4096 ≤ q ∨ q + n ≤ f := by
  obtain ⟨b, d, hb, h1, h2⟩ := h
  have h3 : b + d ≤ q ∨ q + n ≤ b := hq b _ hb
  have h4 : f + 4096 ≤ b + d := h2
  omega

/-- **A handled fault** is not seen by any space. -/
theorem Iso.fault {va : ℕ} (hi : Iso m ty S) (hA : Sees m S A) (hs : s ∈ S)
    (hf : m.spaceCowFault s va = (true, m')) : ∃ ty', Iso m' ty' S ∧ Sees m' S A := by
  rcases hi.wf.spaceCowFault va hi.ro hs (fun h i hp => (hi.data s hs h i hp).1)
    (d := 4096) rfl with ⟨hfalse, -⟩ | ⟨-, h, nf, hva, hcow, hpres, hcp⟩
  · rw [hf] at hfalse
    cases hfalse
  rw [hf] at hcp
  obtain ⟨hfresh, hdvd, hapart, ⟨ty', hw', hro', hdat, hown⟩, hspaces, hcow',
    hothers, hself, hmem⟩ :=
    hcp
  simp only at hw' hro' hown hspaces hcow' hothers hself hmem
  set i₀ := Mmu.pteIndex va with hi₀
  set src := (entry m s h i₀).frame with hsrc
  have hmono : ∀ {f}, InData id ty f → InData id ty' f := fun hd =>
    hd.mono fun p d hp => (hdat p d).mpr (Or.inl hp)
  have hfar : ∀ x ∈ S, ∀ h' j, (entry m x h' j).present = true →
      (entry m x h' j).frame + 4096 ≤ nf ∨ nf + 4096 ≤ (entry m x h' j).frame := fun x hx h' j hp =>
    (hi.data x hx h' j hp).1.apart hapart
  -- an entry is the copy, or as it was
  have cases : ∀ x ∈ S, ∀ h' j, (x = s ∧ h' = h ∧ j = i₀ ∧ entry m' x h' j =
    ⟨nf, true, true, true⟩) ∨
      (¬(x = s ∧ h' = h ∧ j = i₀) ∧ entry m' x h' j = entry m x h' j) := by
    intro x hx h' j
    by_cases hxs : x = s
    · subst hxs
      rw [hself]
      split
      · next hc => exact Or.inl ⟨rfl, hc.1, hc.2, rfl⟩
      · next hc => exact Or.inr ⟨fun hx => hc hx.2, rfl⟩
    · exact Or.inr ⟨fun hx => hxs hx.1, hothers x hx hxs h' j⟩
  have hmemfar : ∀ a, a < nf ∨ nf + 4096 ≤ a → m'.mem a = m.mem a := fun a ha => by
    rw [hmem, memcpy_of_lt_or_ge ha]
  refine ⟨ty', ⟨hw', hro', fun x hx h' j => ?_, fun x hx h' j => ?_, ?_⟩, fun x hx va' => ?_⟩
  · rcases cases x hx h' j with ⟨-, -, -, he⟩ | ⟨-, he⟩ <;> rw [he]
    · exact fun _ => ⟨⟨nf, 4096, (hdat nf 4096).mpr (Or.inr ⟨rfl, rfl⟩), Nat.le_refl _,
        Nat.le_refl _⟩, hdvd, rfl⟩
    · exact fun hp => ⟨hmono (hi.data x hx h' j hp).1, (hi.data x hx h' j hp).2⟩
  · rcases cases x hx h' j with ⟨-, -, -, he⟩ | ⟨-, he⟩ <;> rw [he]
    · intro _ hr
      cases hr
    · intro hp hr
      by_cases hxs : x = s
      · subst hxs
        rw [hcow']
        exact hcow
      · rw [hspaces x hx hxs]
        exact hi.cow x hx h' j hp hr
  · intro x hx h₁ i₁ hp hr y hy h₂ i₂ hp' hf'
    rcases cases x hx h₁ i₁ with ⟨rfl, rfl, rfl, he⟩ | ⟨hn, he⟩
    · rcases cases y hy h₂ i₂ with ⟨rfl, rfl, rfl, -⟩ | ⟨-, he'⟩
      · exact ⟨rfl, rfl, rfl⟩
      · -- no other entry has the new frame
        rw [he, he'] at hf'
        rw [he'] at hp'
        have := hfar y hy h₂ i₂ hp'
        simp only at hf'
        omega
    · rw [he] at hp hr hf'
      rcases cases y hy h₂ i₂ with ⟨rfl, rfl, rfl, he'⟩ | ⟨-, he'⟩
      · rw [he'] at hf'
        have := hfar x hx h₁ i₁ hp
        simp only at hf'
        omega
      · rw [he'] at hp' hf'
        exact hi.once x hx h₁ i₁ hp hr y hy h₂ i₂ hp' hf'
  · rw [load_eq hw' hx, ← hA x hx, load_eq hi.wf hx]
    have hlt := Nat.mod_lt va' (show 0 < 4096 by decide)
    cases hva' : Mmu.userTable va' with
    | none => rfl
    | some h' =>
      simp only [Option.bind_some]
      rcases cases x hx h' (Mmu.pteIndex va') with ⟨rfl, rfl, hj, he⟩ | ⟨-, he⟩
      · -- the copy holds what the page held
        obtain ⟨-, -, huser⟩ := hi.data x hx h' i₀ hpres
        rw [he, hj, readPte, readPte, hpres, huser]
        simp only [Bool.and_self, if_true]
        rw [hmem, memcpy_of_lt hlt]
      · rw [he, readPte, readPte]
        split
        · next hpu =>
          have hp := (Bool.and_eq_true_iff.mp hpu).1
          have := hfar x hx h' (Mmu.pteIndex va') hp
          rw [hmemfar _ (by omega)]
        · rfl

theorem Wf.setMem (hw : Wf id m ty S) (mem : Bytes) : Wf id (m.setMem mem) ty S :=
  hw.congr rfl rfl rfl

/-- **A write** changes one byte of one space, because the page is mapped once. -/
theorem Iso.write {va : ℕ} {v : UInt8} (hi : Iso m ty S) (hA : Sees m S A) (hs : s ∈ S)
    (hwr : m.write s va v = some m') :
    Iso m' ty S ∧ Sees m' S (deep A (.store s va v)) := by
  obtain ⟨h, hva, hp, hu, hr, rfl⟩ := (write_eq_some hi.wf hs).mp hwr
  set e := entry m s h (Mmu.pteIndex va) with he
  have hw' := hi.wf.setMem (Function.update m.mem (e.frame + va % 4096) v)
  refine ⟨⟨hw', hi.ro, hi.data, hi.cow, hi.once⟩, fun x hx va' => ?_⟩
  have hlt := Nat.mod_lt va (show 0 < 4096 by decide)
  have hlt' := Nat.mod_lt va' (show 0 < 4096 by decide)
  have hAx := hA x hx va'
  rw [load_eq hi.wf hx] at hAx
  rw [load_eq hw' hx, deep]
  by_cases hv : x = s ∧ va' = va
  · obtain ⟨rfl, rfl⟩ := hv
    rw [Function.update_self, Function.update_self, hva, Option.bind_some]
    change readPte _ e _ = _
    rw [readPte, hp, hu]
    exact congrArg some (Function.update_self ..)
  · -- another byte: of another page, or another byte of the page
    have hA' : Function.update A s (Function.update (A s) va (some v)) x va' = A x va' := by
      by_cases hxs : x = s
      · subst hxs
        rw [Function.update_self, Function.update_of_ne fun h => hv ⟨rfl, h⟩]
      · rw [Function.update_of_ne hxs]
    rw [hA', ← hAx]
    cases hva' : Mmu.userTable va' with
    | none => rfl
    | some h' =>
      simp only [Option.bind_some]
      change readPte _ (entry m x h' (Mmu.pteIndex va')) _ = _
      rw [readPte, readPte]
      split
      · next hpu =>
        have hp' := (Bool.and_eq_true_iff.mp hpu).1
        congr 1
        refine Function.update_of_ne (fun heq => ?_) _ _
        have hd := (hi.data s hs h _ hp).2.1
        have hd' := (hi.data x hx h' _ hp').2.1
        rw [← he] at hd
        have hfr : (entry m x h' (Mmu.pteIndex va')).frame = e.frame := by omega
        obtain ⟨rfl, rfl, hidx⟩ := hi.once s hs h _ hp hr x hx h' _ hp' hfr
        exact hv ⟨rfl, va_ext hva' hva hidx (by omega)⟩
      · rfl

theorem Iso.store {va : ℕ} {v : UInt8} (hi : Iso m ty S) (hA : Sees m S A) (hs : s ∈ S)
    (hst : m.store s va v = some m') :
    ∃ ty', Iso m' ty' S ∧ Sees m' S (deep A (.store s va v)) := by
  rw [Mmu.store] at hst
  cases hwr : m.write s va v with
  | some m₁ =>
    rw [hwr] at hst
    obtain rfl := Option.some.inj hst
    exact ⟨ty, hi.write hA hs hwr⟩
  | none =>
    rw [hwr] at hst
    rcases hf : m.spaceCowFault s va with ⟨ok, m₁⟩
    rw [hf] at hst
    cases ok with
    | false => cases hst
    | true =>
      obtain ⟨ty', hi', hA'⟩ := hi.fault hA hs hf
      exact ⟨ty', hi'.write hA' hs hst⟩

theorem Iso.destroy (hi : Iso m ty S) (hA : Sees m S A) (hs : s ∈ S) :
    ∃ ty', Iso (m.spaceDestroy s) ty' (S.erase s) ∧ Sees (m.spaceDestroy s) (S.erase s) A := by
  obtain ⟨ty', hw', hsh⟩ := hi.wf.spaceDestroy hs
  refine ⟨ty', hi.of_shown (Finset.erase_subset s S) hw' hsh, fun x hx va => ?_⟩
  have hxS := Finset.mem_of_mem_erase hx
  rw [load_eq hw' hx, hsh.mem, ← hA x hxS, load_eq hi.wf hxS]
  simp only [hsh.entries x hx]

/-- The page of an address that is in a run of them. -/
theorem exists_page_of_run {h : Half} {va n a : ℕ} (hv : InHalf h va n) (h₁ : va ≤ a)
    (h₂ : a < va + n * 4096) :
    ∃ k < n, Mmu.pageOf a = va + k * 4096 := by
  have hdvd := hv.1
  refine ⟨(a - va) / 4096, by omega, ?_⟩
  rw [Mmu.pageOf]
  omega

/-- An address is in a run of pages just when its page is one of them. -/
theorem mem_run_iff {h h' : Half} {va n a : ℕ} (hv : InHalf h va n)
    (ha : Mmu.userTable a = some h') : (va ≤ a ∧ a < va + n * 4096) ↔
      h' = h ∧ ∃ k < n, Mmu.pteIndex a = Mmu.pteIndex (va + k * 4096) := by
  constructor
  · rintro ⟨h1, h2⟩
    obtain ⟨k, hk, hpage⟩ := exists_page_of_run hv h1 h2
    refine ⟨?_, k, hk, ?_⟩
    · have := hv.2 k hk
      rw [← hpage, userTable_pageOf, ha] at this
      exact Option.some.inj this
    · rw [← hpage, pteIndex_pageOf]
  · rintro ⟨rfl, k, hk, hi⟩
    have hdvd := hv.1
    have hpa : Mmu.userTable (Mmu.pageOf a) = some h' := (userTable_pageOf a).trans ha
    have hpk := hv.2 k hk
    have := va_ext hpa hpk ((pteIndex_pageOf a).trans hi) (by rw [Mmu.pageOf]; omega)
    rw [Mmu.pageOf] at this
    omega

/-- The entries for the pages from `va` on lead to those from `pa` on, and the others are as
before. -/
def Mapped (m m' : Mmu H) (S : Finset ℕ) (s : ℕ) (h : Half) (va pa n : ℕ) : Prop :=
  ∀ x ∈ S, ∀ h' j,
    (x = s ∧ h' = h ∧ ∃ k < n, j = Mmu.pteIndex (va + k * 4096) ∧
      entry m' x h' j = ⟨pa + k * 4096, true, true, true⟩) ∨
    (¬(x = s ∧ h' = h ∧ ∃ k < n, j = Mmu.pteIndex (va + k * 4096)) ∧
      entry m' x h' j = entry m x h' j)

/-- Frames that were not out are nobody else's. -/
theorem Iso.mapped {va n pa : ℕ} {h : Half} (hi : Iso m ty S) (hw : Wf id m' ty' S)
    (hro : ∀ g, Ro m' ty' g)
    (hold : ∀ p d, ty p = some (.data d) → ty' p = some (.data d))
    (hnew : ty' pa = some (.data (n * 4096)))
    (hpa : 4096 ∣ pa)
    (hfar : ∀ x ∈ S, ∀ h' j, (entry m x h' j).present = true →
      (entry m x h' j).frame + 4096 ≤ pa ∨ pa + n * 4096 ≤ (entry m x h' j).frame)
    (hsp : m'.spaces = m.spaces) (hm : Mapped m m' S s h va pa n) : Iso m' ty' S := by
  -- a frame of the new ones is not one that was there
  have hother : ∀ x ∈ S, ∀ h' j, (entry m x h' j).present = true → ∀ k < n,
      (entry m x h' j).frame ≠ pa + k * 4096 := by
    intro x hx h' j hp k hk hf
    have h1 := hfar x hx h' j hp
    have h2 : (k + 1) * 4096 ≤ n * 4096 := Nat.mul_le_mul_right 4096 hk
    omega
  refine ⟨hw, hro, fun x hx h' j => ?_, fun x hx h' j => ?_, ?_⟩
  · rcases hm x hx h' j with ⟨-, -, k, hk, -, he⟩ | ⟨-, he⟩ <;> rw [he]
    · intro _
      refine ⟨⟨pa, n * 4096, hnew, Nat.le_add_right _ _, ?_⟩, by simp only; omega, rfl⟩
      have : (k + 1) * 4096 ≤ n * 4096 := Nat.mul_le_mul_right 4096 hk
      change pa + k * 4096 + 4096 ≤ pa + n * 4096
      omega
    · exact fun hp => ⟨(hi.data x hx h' j hp).1.mono hold, (hi.data x hx h' j hp).2⟩
  · rcases hm x hx h' j with ⟨-, -, k, hk, -, he⟩ | ⟨-, he⟩ <;> rw [he]
    · intro _ hr
      cases hr
    · rw [hsp]
      exact hi.cow x hx h' j
  · intro x hx h₁ i₁ hp hr y hy h₂ i₂ hp' hf
    rcases hm x hx h₁ i₁ with ⟨rfl, rfl, k, hk, rfl, he⟩ | ⟨-, he⟩
    · rcases hm y hy h₂ i₂ with ⟨rfl, rfl, l, hl, rfl, he'⟩ | ⟨-, he'⟩
      · rw [he, he'] at hf
        simp only at hf
        obtain rfl : l = k := by omega
        exact ⟨rfl, rfl, rfl⟩
      · rw [he, he'] at hf
        rw [he'] at hp'
        exact absurd hf (hother y hy h₂ i₂ hp' k hk)
    · rw [he] at hp hr hf
      rcases hm y hy h₂ i₂ with ⟨rfl, rfl, l, hl, rfl, he'⟩ | ⟨-, he'⟩
      · rw [he'] at hf
        exact absurd hf.symm (hother x hx h₁ i₁ hp l hl)
      · rw [he'] at hp' hf
        exact hi.once x hx h₁ i₁ hp hr y hy h₂ i₂ hp' hf

/-- The space sees what is in the new frames. -/
theorem Sees.mapped {va n pa : ℕ} {h : Half} (hA : Sees m S A) (hw : Wf id m ty S)
    (hw' : Wf id m' ty' S)
    (hva : InHalf h va n) (hmem : m'.mem = m.mem) (hm : Mapped m m' S s h va pa n) :
    Sees m' S (deep A (.map s va n fun k => m.mem (pa + k))) := by
  intro x hx a
  have hAx := hA x hx a
  rw [load_eq hw hx] at hAx
  rw [load_eq hw' hx, hmem, deep]
  cases hua : Mmu.userTable a with
  | none =>
    rw [hua] at hAx
    by_cases hxs : x = s
    · subst hxs
      rw [Function.update_self, if_neg, ← hAx]
      · rfl
      · rintro ⟨h1, h2⟩
        obtain ⟨k, hk, hpage⟩ := exists_page_of_run hva h1 h2
        have := hva.2 k hk
        rw [← hpage, userTable_pageOf, hua] at this
        cases this
    · rw [Function.update_of_ne hxs, ← hAx]
      rfl
  | some h' =>
    rw [hua] at hAx
    simp only [Option.bind_some] at hAx ⊢
    rcases hm x hx h' (Mmu.pteIndex a) with ⟨rfl, rfl, k, hk, hidx, he⟩ | ⟨hn', he⟩
    · have hrun := (mem_run_iff hva hua).mpr ⟨rfl, k, hk, hidx⟩
      have hpage : Mmu.pageOf a = va + k * 4096 := va_ext ((userTable_pageOf a).trans hua)
        (hva.2 k hk) ((pteIndex_pageOf a).trans hidx) (by
          have := hva.1
          rw [Mmu.pageOf]
          omega)
      rw [Mmu.pageOf] at hpage
      rw [Function.update_self, if_pos hrun, he, readPte]
      simp only [Bool.and_self, if_true]
      congr 2
      omega
    · have hrun : ¬(x = s ∧ va ≤ a ∧ a < va + n * 4096) := fun hc => by
        obtain ⟨hxs, hr⟩ := hc
        obtain ⟨h1, h2⟩ := (mem_run_iff hva hua).mp hr
        exact hn' ⟨hxs, h1, h2⟩
      rw [he, hAx]
      by_cases hxs : x = s
      · subst hxs
        rw [Function.update_self, if_neg fun hr => hrun ⟨rfl, hr⟩]
      · rw [Function.update_of_ne hxs]

theorem Iso.map {m₁ : Mmu H} {va n pa : ℕ} {h : Half} (hi : Iso m ty S) (hA : Sees m S A)
    (hs : s ∈ S) (hcow : (m.spaces s).cow = 0) (hn : n < 2 ^ 16) (hva : InHalf h va n)
    (ha : m.kframeAllocN n = (pa, m₁)) (h0 : pa ≠ 0) (hm : m₁.mapRange s va pa n = (true, m')) :
    ∃ ty', Iso m' ty' S ∧ Sees m' S (deep A (.map s va n fun k => m.mem (pa + k))) := by
  obtain ⟨ty₁, htk, hb⟩ := (hi.wf.built.kframeAllocN hn ha).2 h0 (.data (n * 4096)) rfl
  obtain ⟨hw₁, hro₁⟩ := hi.wf.data htk hb
  have hm₁ : m₁ = m.setHeap m₁.heap := hb.heap
  have hent₁ : ∀ x h i, entry m₁ x h i = entry m x h i := fun x h i => by
    rw [hm₁]
    rfl
  have hsp₁ : m₁.spaces = m.spaces := by rw [hm₁]; rfl
  have hme₁ : m₁.mem = m.mem := by rw [hm₁]; rfl
  obtain ⟨hpa, hapart⟩ := hi.wf.pages_apart hn ha h0
  have hfar : ∀ x ∈ S, ∀ h' j, (entry m x h' j).present = true →
      (entry m x h' j).frame + 4096 ≤ pa ∨ pa + n * 4096 ≤ (entry m x h' j).frame :=
    fun x hx h' j hp => (hi.data x hx h' j hp).1.apart hapart
  have hown : ∀ h, ty₁ ((m₁.spaces s).pt h) = some (.own s h) :=
    (hw₁.table s hs).resolve_left fun hatt => hatt.1 (by rw [hsp₁]; exact hcow)
  obtain ⟨m₂, hm₂, hw₂, hsh₂, hsp₂, -, -, -, hoth, hin, hout⟩ := hw₁.mapRange hs hown hpa n hva
    fun i hp => by
      rw [hent₁] at hp ⊢
      exact hfar s hs h i hp
  obtain rfl : m₂ = m' := by
    rw [hm₂] at hm
    exact (Prod.mk.inj hm).2
  have hmapped : Mapped m m₂ S s h va pa n := by
    intro x hx h' j
    by_cases hxs : x = s
    · subst hxs
      by_cases hh : h' = h
      · subst hh
        by_cases hk : ∃ k < n, j = Mmu.pteIndex (va + k * 4096)
        · obtain ⟨k, hk, rfl⟩ := hk
          exact Or.inl ⟨rfl, rfl, k, hk, rfl, hin k hk⟩
        · refine Or.inr ⟨fun hc => hk hc.2.2, ?_⟩
          rw [hout j fun k hlt he => hk ⟨k, hlt, he⟩, hent₁]
      · exact Or.inr ⟨fun hc => hh hc.2.1, by rw [hoth h' j hh, hent₁]⟩
    · refine Or.inr ⟨fun hc => hxs hc.1, ?_⟩
      rw [hsh₂.entries x (Finset.mem_erase.mpr ⟨hxs, hx⟩), hent₁]
  exact ⟨ty₁, hi.mapped hw₂ (hsh₂.ro (hro₁ hi.ro)) (fun p d => htk.old p _) htk.self hpa hfar
    (hsp₂.trans hsp₁) hmapped,
    hA.mapped hi.wf hw₂ hva (hsh₂.mem.trans hme₁) hmapped⟩

/-- **Step.** -/
theorem Iso.step {σ σ' : Sys H} {e : Event} (hi : Iso σ.m ty σ.live) (hA : Sees σ.m σ.live A)
    (hst : Step σ e σ') : ∃ ty', Iso σ'.m ty' σ'.live ∧ Sees σ'.m σ'.live (deep A e) := by
  cases hst with
  | create hc h0 => exact hi.create hA hc h0
  | map hs hcow hn hva ha h0 hm => exact hi.map hA hs hcow hn hva ha h0 hm
  | share hp hc hne hcow hsh => exact hi.share hA hp hc hne hcow hsh
  | load hs hl => exact ⟨ty, hi, hA⟩
  | store hs hst => exact hi.store hA hs hst
  | destroy hs => exact hi.destroy hA hs

/-- **Run.** -/
theorem Iso.runs {σ σ' : Sys H} {es : List Event} (hr : Runs σ es σ') : ∀ {ty A},
    Iso σ.m ty σ.live → Sees σ.m σ.live A →
    ∃ ty', Iso σ'.m ty' σ'.live ∧ Sees σ'.m σ'.live (es.foldl deep A) := by
  induction hr with
  | nil σ => exact fun hi hA => ⟨_, hi, hA⟩
  | cons hst _ ih =>
    intro ty A hi hA
    obtain ⟨ty', hi', hA'⟩ := hi.step hA hst
    exact ih hi' hA'

/-- Before the first space there is nothing to keep in order. -/
theorem iso_empty (m : Mmu H) : Iso m (fun _ => none) ∅ := by
  refine ⟨⟨fun p k hp => (by cases hp), by simp, by simp, by simp, by simp, by simp,
    fun g hg => (by cases hg), fun g hg => (by cases hg)⟩, fun g hg => (by cases hg),
    by simp, by simp,
    by simp⟩

/-- Nothing is mapped before the first space. -/
def nothing : Memories := fun _ _ => none

omit [PageAlloc H] in
theorem sees_empty (m : Mmu H) : Sees m ∅ nothing := fun x hx => by simp at hx

/-- **Isolation.** From a system without spaces, whatever is made, mapped, shared, loaded, stored
and destroyed, in whatever order: every space reads at every address what it would read if each
sharing had made a private copy of the memory of the parent. -/
theorem cow_isolation {m : Mmu H} {es : List Event} {σ : Sys H} (hr : Runs ⟨m, ∅⟩ es σ) :
    ∀ s ∈ σ.live, ∀ va, σ.m.load s va = es.foldl deep nothing s va := by
  obtain ⟨-, -, hA⟩ := Iso.runs hr (iso_empty m) (sees_empty m)
  exact hA

/-- A parent with one page that holds `c`, and a child that stores to it. -/
def oneFork (c : ℕ → UInt8) : List Event :=
  [.create 4096, .map 4096 0x40000000 1 c, .create 69632, .share 4096 69632,
    .store 69632 0x40000005 7]

theorem runs_oneFork : ∃ c σ, Runs ⟨bare, ∅⟩ (oneFork c) σ ∧
    σ.live = insert 69632 (insert 4096 ∅) := by
  let m₁ := bare.spaceCreate.2
  let m₂ := (m₁.kframeAllocN 1).2
  let m₃ := (m₂.mapRange 4096 0x40000000 61440 1).2
  let m₄ := m₃.spaceCreate.2
  let m₅ := (m₄.spaceShareUser 69632 4096).2
  have h₁ : bare.spaceCreate = (4096, m₁) := eq_pair (by decide +kernel)
  have h₂ : m₁.kframeAllocN 1 = (61440, m₂) := eq_pair (by decide +kernel)
  have h₃ : m₂.mapRange 4096 0x40000000 61440 1 = (true, m₃) := eq_pair (by decide +kernel)
  have h₄ : m₃.spaceCreate = (69632, m₄) := eq_pair (by decide +kernel)
  have h₅ : m₄.spaceShareUser 69632 4096 = (true, m₅) := eq_pair (by decide +kernel)
  obtain ⟨m₆, h₆⟩ : ∃ m₆, m₅.store 69632 0x40000005 7 = some m₆ :=
    Option.isSome_iff_exists.mp (by decide +kernel)
  refine ⟨fun k => m₁.mem (61440 + k), ⟨m₆, insert 69632 (insert 4096 ∅)⟩, ?_, rfl⟩
  refine .cons (.create h₁ (by decide)) (.cons (.map (h := .code) (by simp) (by decide +kernel)
    (by decide) ⟨by decide, fun k hk => ?_⟩ h₂ (by decide) h₃) (.cons (.create h₄ (by decide))
    (.cons (.share (by simp) (by simp) (by decide) (by decide +kernel) h₅)
    (.cons (.store (by simp) h₆) (.nil _)))))
  obtain rfl : k = 0 := by omega
  decide

theorem cow_isolation_oneFork : ∃ c σ, Runs ⟨bare, ∅⟩ (oneFork c) σ ∧
    σ.m.load 4096 0x40000005 = some (c 5) ∧ σ.m.load 69632 0x40000005 = some 7 := by
  obtain ⟨c, σ, hr, hl⟩ := runs_oneFork
  have h := cow_isolation hr
  rw [hl] at h
  exact ⟨c, σ, hr, h 4096 (by simp) 0x40000005, h 69632 (by simp) 0x40000005⟩

/-! ## Stores go through -/

end Paging

end Aurisys
