import Aurisys.Kernel.Exec
import Aurisys.Kernel.Isolation

/-!
# Where the addresses of a space are

`map_image` puts three runs of frames into a fresh space, and after that the kernel writes the
program and its stack through the space. What matters about the tables is one function, from the
addresses of the space to the memory. It is defined on the three ranges, and takes no two addresses
to one byte, because the runs are apart: what is written at an address is read there, and nowhere
else.

## Main definitions

* `place` — where an address is
* `OneToOne` — the program sees what is present, and no byte twice
* `spot` — where `map_image` puts the addresses

## Main results

* `poke_spec` — the kernel writes
* `mapRange_spec`
-/

namespace Aurisys

open Bytes

namespace Paging.Mmu

variable {H : Type} {m m' : Mmu H} {s va pa n : ℕ} {h : Half}

/-- Where an address of a space is in memory, if its page is present. -/
def place (m : Mmu H) (s va : ℕ) : Option ℕ :=
  (m.walk s va).bind fun e => if e.present then some (e.frame + va % 4096) else none

/-- The program sees all pages that are present, and no byte of memory at two addresses. -/
structure OneToOne (m : Mmu H) (s : ℕ) : Prop where
  inj : ∀ a b p, m.place s a = some p → m.place s b = some p → a = b
  user : ∀ a e, m.walk s a = some e → e.present = true → e.user = true

theorem OneToOne.setMem (ho : m.OneToOne s) (mem : Bytes) : (m.setMem mem).OneToOne s :=
  ⟨ho.inj, ho.user⟩

theorem OneToOne.load_eq (ho : m.OneToOne s) (a : ℕ) : m.load s a = (m.place s a).map m.mem := by
  have huser := ho.user a
  rw [load, place]
  cases hw : m.walk s a with
  | none => rfl
  | some e =>
    rw [hw] at huser
    by_cases hp : e.present = true
    · simp [hp, huser e rfl hp]
    · simp [hp]

/-- One byte is written through the space. -/
theorem poke_cons {v : UInt8} {vs : List UInt8} {p : ℕ} (hp : m.place m.current va = some p) :
    m.poke va (v :: vs) = (m.setMem (Function.update m.mem p v)).poke (va + 1) vs := by
  rw [place] at hp
  rw [poke]
  cases hw : m.walk m.current va with
  | none =>
    rw [hw] at hp
    cases hp
  | some e =>
    rw [hw, Option.bind_some] at hp
    by_cases he : e.present = true
    · rw [if_pos he, Option.some.injEq] at hp
      simp only [he, if_true, hp]
    · rw [if_neg he] at hp
      cases hp

/-- **The kernel writes** where the space has pages, and the program reads it there. -/
theorem poke_spec (va : ℕ) (vs : List UInt8) (ho : m.OneToOne m.current)
    (hin : ∀ i < vs.length, (m.place m.current (va + i)).isSome) :
    ∃ mem, m.poke va vs = some (m.setMem mem) ∧ ∀ a, (m.setMem mem).load m.current a =
      if va ≤ a ∧ a < va + vs.length then vs[a - va]? else m.load m.current a := by
  induction vs generalizing m va with
  | nil =>
    refine ⟨m.mem, rfl, fun a => ?_⟩
    rw [if_neg (by simp)]
    rfl
  | cons v vs ih =>
    obtain ⟨p, hp⟩ := Option.isSome_iff_exists.mp (hin 0 (Nat.zero_lt_succ _))
    rw [Nat.add_zero] at hp
    set m₁ := m.setMem (Function.update m.mem p v) with hm₁
    have ho₁ : m₁.OneToOne m₁.current := ho.setMem _
    obtain ⟨mem, hpoke, hload⟩ := ih (m := m₁) (va + 1) ho₁ fun i hi => by
      have := hin (i + 1) (Nat.succ_lt_succ hi)
      rwa [Nat.add_comm i 1, ← Nat.add_assoc] at this
    refine ⟨mem, by rw [poke_cons hp, ← hm₁, hpoke, hm₁]; rfl, fun a => ?_⟩
    have hone : m₁.load m.current a = if a = va then some v else m.load m.current a := by
      rw [show m₁.load m.current a = (m.place m.current a).map (Function.update m.mem p v)
        from ho₁.load_eq a,
        ho.load_eq a]
      by_cases ha : a = va
      · simp [ha, hp]
      · rw [if_neg ha]
        cases hq : m.place m.current a with
        | none => rfl
        | some q =>
          have hne : q ≠ p := fun he => ha (ho.inj a va p (he ▸ hq) hp)
          simp [Function.update_of_ne hne]
    have hrest : (m.setMem mem).load m.current a = _ := hload a
    rw [hrest, show m₁.load m₁.current a = _ from hone, List.length_cons]
    by_cases ha : a = va
    · subst ha
      simp
    · by_cases hr : va + 1 ≤ a ∧ a < va + 1 + vs.length
      · rw [if_pos hr, if_pos (by omega), show a - va = a - (va + 1) + 1 by omega,
          List.getElem?_cons_succ]
      · rw [if_neg hr, if_neg ha, if_neg (by omega)]

/-! ## Tables -/

/-- Other tables. -/
@[simps -fullyApplied] def setTables (m : Mmu H) (t : ℕ → Table) : Mmu H := { m with tables := t }

/-- The space has two tables of its own, and the processor walks them. -/
structure Linked (m : Mmu H) (s : ℕ) : Prop where
  /-- The directory leads to the tables that the space names. -/
  link : ∀ h, (m.spaces s).link h = (m.spaces s).pt h
  /-- They are two. -/
  ne : (m.spaces s).ptCode ≠ (m.spaces s).ptHeap

theorem Linked.setTables (hl : m.Linked s) (t : ℕ → Table) : (m.setTables t).Linked s :=
  ⟨hl.link, hl.ne⟩

theorem Linked.pt_inj (hl : m.Linked s) {h' : Half} (he : (m.spaces s).pt h = (m.spaces s).pt h') :
    h = h' := by
  cases h <;> cases h'
  · rfl
  · exact absurd he hl.ne
  · exact absurd he.symm hl.ne
  · rfl

theorem userTable_page {a : ℕ} (he : a / 4096 = va / 4096) : userTable a = userTable va := by
  simp only [userTable]
  split_ifs
  all_goals first
    | rfl
    | omega

/-- The page of an address is its half and its index. -/
theorem page_eq {a : ℕ} (hv : userTable va = some h) (ha : userTable a = some h)
    (hi : pteIndex a = pteIndex va) : a / 4096 = va / 4096 := by
  have hsame : va % 4096 + a / 4096 * 4096 = va := by
    refine va_ext (h := h) ?_ hv ?_ (by omega)
    · rw [← ha]
      exact userTable_page (by omega)
    · rw [← hi, pteIndex, pteIndex, Fin.mk.injEq]
      omega
  omega

/-- **`map_page`** on a page that is not there yet. -/
theorem mapPage_spec (pa : ℕ) (hl : m.Linked s) (hs : s ≠ 0) (hu : userTable va = some h)
    (hfree : m.place s va = none) :
    ∃ t, m.mapPage s va pa true = (true, m.setTables t) ∧ ∀ a, (m.setTables t).walk s a =
      if a / 4096 = va / 4096 then some ⟨pageOf pa, true, true, true⟩ else m.walk s a := by
  have habsent : (m.tables ((m.spaces s).pt h) (pteIndex va)).present = false := by
    rw [place, walk, hu, Option.map_some, Option.bind_some, hl.link] at hfree
    by_contra hno
    rw [if_pos (Bool.eq_true_of_not_eq_false hno)] at hfree
    cases hfree
  refine ⟨_, by rw [mapPage, if_neg hs, hu]; simp only [habsent]; rfl, fun a => ?_⟩
  rw [walk, walk, setTables_spaces]
  by_cases hp : a / 4096 = va / 4096
  · rw [if_pos hp, userTable_page hp, hu, Option.map_some, hl.link, setTables_tables,
      Function.update_self]
    have hi : pteIndex a = pteIndex va := by simp only [pteIndex, hp]
    rw [hi, Function.update_self]
  · rw [if_neg hp]
    cases ha : userTable a with
    | none => rfl
    | some h' =>
      rw [Option.map_some, Option.map_some, hl.link, setTables_tables]
      by_cases hpt : (m.spaces s).pt h' = (m.spaces s).pt h
      · obtain rfl := hl.pt_inj hpt
        have hi : pteIndex a ≠ pteIndex va := fun he => hp (page_eq hu ha he)
        rw [Function.update_self, Function.update_of_ne hi]
      · rw [Function.update_of_ne hpt]

/-- **A run of pages** that are not there yet. -/
theorem mapRange_spec (hl : m.Linked s) (hs : s ≠ 0) (hva : 4096 ∣ va) (hpa : 4096 ∣ pa)
    (hu : ∀ i < n, userTable (va + i * 4096) = some h)
    (hfree : ∀ a, va ≤ a → a < va + n * 4096 → m.place s a = none) :
    ∃ t, m.mapRange s va pa n = (true, m.setTables t) ∧ ∀ a, (m.setTables t).walk s a =
      if va ≤ a ∧ a < va + n * 4096 then some ⟨pa + (a - va) / 4096 * 4096, true, true, true⟩
      else m.walk s a := by
  obtain ⟨v, rfl⟩ := hva
  obtain ⟨p, rfl⟩ := hpa
  induction n with
  | zero => exact ⟨m.tables, rfl, fun a => by rw [if_neg (by omega)]; rfl⟩
  | succ n ih =>
    obtain ⟨t, hmap, hwalk⟩ := ih (fun i hi => hu i (Nat.lt_succ_of_lt hi))
      fun a ha hb =>
      hfree a ha (hb.trans_le (Nat.add_le_add_left (Nat.mul_le_mul_right 4096 n.le_succ) _))
    have hnext : (m.setTables t).place s (4096 * v + n * 4096) = none := by
      rw [place, hwalk, if_neg (by omega)]
      exact hfree (4096 * v + n * 4096) (Nat.le_add_right _ _) (Nat.add_lt_add_left (by omega) _)
    obtain ⟨t', hpage, hwalk'⟩ :=
      mapPage_spec (4096 * p + n * 4096) (hl.setTables t) hs (hu n n.lt_succ_self) hnext
    refine ⟨t', ?_, fun a => ?_⟩
    · simp only [mapRange, hmap, hpage]
      rfl
    · have hrest : (m.setTables t').walk s a = _ := hwalk' a
      rw [hrest, hwalk]
      by_cases hp : a / 4096 = (4096 * v + n * 4096) / 4096
      · rw [if_pos hp, if_pos (by omega), pageOf]
        congr 2
        omega
      · rw [if_neg hp]
        exact if_congr (by omega) rfl rfl

/-- Pages have been mapped, one after the other, and nothing else about the space has changed. -/
structure Mapped (m m' : Mmu H) (s va pa n : ℕ) : Prop where
  /-- The pages at `va` are found from `pa` on, and the others where they were. -/
  place : ∀ a, m'.place s a = if va ≤ a ∧ a < va + n * 4096 then some (pa + (a - va))
    else m.place s a
  /-- They are the user's. -/
  user : (∀ a e, m.walk s a = some e → e.present = true → e.user = true) →
    ∀ a e, m'.walk s a = some e → e.present = true → e.user = true

theorem mapRange_mapped (hl : m.Linked s) (hs : s ≠ 0) (hva : 4096 ∣ va) (hpa : 4096 ∣ pa)
    (hu : ∀ i < n, userTable (va + i * 4096) = some h)
    (hfree : ∀ a, va ≤ a → a < va + n * 4096 → m.place s a = none) :
    ∃ t, m.mapRange s va pa n = (true, m.setTables t) ∧ Mapped m (m.setTables t) s va pa n := by
  obtain ⟨t, hmap, hwalk⟩ := mapRange_spec hl hs hva hpa hu hfree
  refine ⟨t, hmap, fun a => ?_, fun hall a e he hp => ?_⟩
  · rw [Mmu.place, hwalk]
    by_cases ha : va ≤ a ∧ a < va + n * 4096
    · have hsame : pa + (a - va) / 4096 * 4096 + a % 4096 = pa + (a - va) := by omega
      rw [if_pos ha, if_pos ha, Option.bind_some, if_pos rfl, hsame]
    · rw [if_neg ha, if_neg ha]
      rfl
  · rw [hwalk] at he
    split at he
    · obtain rfl := Option.some.inj he
      rfl
    · exact hall a e he hp

end Paging.Mmu

namespace Kernel

open Paging

variable {H : Type} {m : Mmu H} {t : Task}

/-! ## The image -/

/-- Where `map_image` puts the addresses. -/
def spot (t : Task) (a : ℕ) : Option ℕ :=
  if kAppBase ≤ a ∧ a < kAppBase + kCodeBytes then some (t.codeBase + (a - kAppBase))
  else if kStackBase ≤ a ∧ a < kStackBase + kStackBytes then some (t.stackBase + (a - kStackBase))
  else if kArenaVA ≤ a ∧ a < kArenaVA + kArenaBytes then some (t.heapBase + (a - kArenaVA))
  else none

/-- The frames of a task are three runs of pages, apart from each other. -/
structure Framed (t : Task) : Prop where
  /-- The image begins with a page, -/
  code : 4096 ∣ t.codeBase
  /-- and so do the stack -/
  stack : 4096 ∣ t.stackBase
  /-- and the arena. -/
  heap : 4096 ∣ t.heapBase
  /-- The image does not meet the stack, -/
  code_stack : t.codeBase + kCodeBytes ≤ t.stackBase ∨ t.stackBase + kStackBytes ≤ t.codeBase
  /-- nor the arena, -/
  code_heap : t.codeBase + kCodeBytes ≤ t.heapBase ∨ t.heapBase + kArenaBytes ≤ t.codeBase
  /-- and these do not meet. -/
  stack_heap : t.stackBase + kStackBytes ≤ t.heapBase ∨ t.heapBase + kArenaBytes ≤ t.stackBase

theorem spot_cases {a p : ℕ} (h : spot t a = some p) :
    (kAppBase ≤ a ∧ a < kAppBase + kCodeBytes ∧ p = t.codeBase + (a - kAppBase)) ∨
      (kStackBase ≤ a ∧ a < kStackBase + kStackBytes ∧ p = t.stackBase + (a - kStackBase)) ∨
      kArenaVA ≤ a ∧ a < kArenaVA + kArenaBytes ∧ p = t.heapBase + (a - kArenaVA) := by
  rw [spot] at h
  split at h
  · next hc => exact .inl ⟨hc.1, hc.2, (Option.some.inj h).symm⟩
  · split at h
    · next hc => exact .inr (.inl ⟨hc.1, hc.2, (Option.some.inj h).symm⟩)
    · split at h
      · next hc => exact .inr (.inr ⟨hc.1, hc.2, (Option.some.inj h).symm⟩)
      · cases h

theorem Framed.spot_inj (hf : Framed t) {a b p : ℕ} (ha : spot t a = some p)
    (hb : spot t b = some p) : a = b := by
  obtain ⟨-, -, -, hcs, hch, hsh⟩ := hf
  rcases spot_cases ha with ⟨h₁, h₂, h₃⟩ | ⟨h₁, h₂, h₃⟩ | ⟨h₁, h₂, h₃⟩
  all_goals
    rcases spot_cases hb with ⟨k₁, k₂, k₃⟩ | ⟨k₁, k₂, k₃⟩ | ⟨k₁, k₂, k₃⟩
    all_goals omega

/-- **`map_image`** in a space that has nothing yet. -/
theorem mapImage_spec (hl : m.Linked t.sp) (hs : t.sp ≠ 0) (hfree : ∀ a, m.place t.sp a = none)
    (hf : Framed t) :
    ∃ tb, mapImage m t = (true, m.setTables tb) ∧ (m.setTables tb).OneToOne t.sp ∧
      (m.setTables tb).place t.sp = spot t := by
  have hall : ∀ a e, m.walk t.sp a = some e → e.present = true → e.user = true := by
    intro a e he hp
    have := hfree a
    rw [Mmu.place, he, Option.bind_some, if_pos hp] at this
    cases this
  have happ : kAppBase = 0x40000000 := rfl
  have hcb : kCodeBytes = 64 * 4096 := rfl
  have hsb : kStackBase = 0x40100000 := rfl
  have hss : kStackBytes = 16 * 4096 := rfl
  have hva : kArenaVA = 0x40200000 := rfl
  have hab : kArenaBytes = 256 * 4096 := rfl
  have hcode : ∀ i < 64, Mmu.userTable (kAppBase + i * 4096) = some .code := by
    intro i hi
    rw [Mmu.userTable, if_pos (by omega)]
  have hstack : ∀ i < 16, Mmu.userTable (kStackBase + i * 4096) = some .code := by
    intro i hi
    rw [Mmu.userTable, if_pos (by omega)]
  have hheap : ∀ i < 256, Mmu.userTable (kArenaVA + i * 4096) = some .heap := by
    intro i hi
    rw [Mmu.userTable, if_neg (by omega), if_pos (by omega)]
  obtain ⟨t₁, hm₁, hp₁, hu₁⟩ :=
    Mmu.mapRange_mapped hl hs (by decide) hf.code hcode fun a _ _ => hfree a
  obtain ⟨t₂, hm₂, hp₂, hu₂⟩ :=
    Mmu.mapRange_mapped (hl.setTables t₁) hs (by decide) hf.stack hstack fun a ha hb => by
    rw [hp₁, if_neg (by omega), hfree]
  obtain ⟨t₃, hm₃, hp₃, hu₃⟩ :=
    Mmu.mapRange_mapped ((hl.setTables t₁).setTables t₂) hs (by decide) hf.heap hheap
    fun a ha hb => by
      rw [hp₂, if_neg (by omega), hp₁, if_neg (by omega), hfree]
  have hplace : (m.setTables t₃).place t.sp = spot t := by
    funext a
    have h₃ : (m.setTables t₃).place t.sp a = _ := hp₃ a
    rw [h₃, hp₂, hp₁, hfree, spot, ← hcb, ← hss, ← hab]
    by_cases h₁ : kAppBase ≤ a ∧ a < kAppBase + kCodeBytes
    · rw [if_neg (by omega), if_neg (by omega), if_pos h₁, if_pos h₁]
    · rw [if_neg h₁, if_neg h₁]
      by_cases h₂ : kStackBase ≤ a ∧ a < kStackBase + kStackBytes
      · rw [if_neg (by omega), if_pos h₂, if_pos h₂]
      · rw [if_neg h₂, if_neg h₂]
  refine ⟨t₃, ?_, ⟨fun a b p ha hb => ?_, hu₃ (hu₂ (hu₁ hall))⟩, hplace⟩
  · have hn : kCodeBytes / 4096 = 64 ∧ kStackBytes / 4096 = 16 ∧ kArenaBytes / 4096 = 256 :=
      ⟨rfl, rfl, rfl⟩
    simp only [mapImage, hn.1, hn.2.1, hn.2.2, hm₁, hm₂, hm₃]
    rfl
  · rw [hplace] at ha hb
    exact hf.spot_inj ha hb

end Kernel

end Aurisys
