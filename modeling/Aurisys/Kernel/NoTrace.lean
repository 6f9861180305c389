import Aurisys.Kernel.Fork
import Aurisys.Lib.Usage

/-!
# A fork that fails

`fork_user` can run out of memory in nine places, after it has purged the notes about the number it
means to give. What it takes is given back in one case only: when the child has its space and the
page for a new group is missing. Pages taken for half a space are lost; and a child without a stack
stays a member of the group of its parent, whose pages are read only by then.

So a fork fails without a trace exactly when it stops before the notes are purged, or purges none
and then misses the very first page, or the page for the group of a parent that has none.

## Main definitions

* `NoTrace` — nothing that others see has changed
* `Grounded` — the space of the caller is in order
* `Clean` — when a fork leaves no trace

## Main results

* `forkUser_noTrace_iff`
-/

namespace Aurisys

open Pages PageAlloc UsageStats Paging

namespace Paging.Mmu

variable {H : Type} [PageAlloc H] {m m' : Mmu H} {p : ℕ}

/-! ## Where the parent can store -/

omit [PageAlloc H] in
/-- A store that needs no fault depends on the tables of the space only. -/
theorem write_isSome_congr (hs : m'.spaces p = m.spaces p)
    (ht : ∀ h, m'.tables ((m.spaces p).link h) = m.tables ((m.spaces p).link h))
    (va : ℕ) (v : UInt8) :
    (m'.write p va v).isSome = (m.write p va v).isSome := by
  have hw : m'.walk p va = m.walk p va := by
    rw [walk, walk, hs]
    cases userTable va with
    | none => rfl
    | some h => rw [Option.map_some, Option.map_some, ht]
  rw [write, write, hw]
  cases m.walk p va with
  | none => rfl
  | some e => simp only; split <;> rfl

/-- Without a page a fault cannot be served. -/
theorem spaceCowFault_short (h : (m.spaces p).cow = 0 ∨ (allocN m.heap 1).1 = 0) (va : ℕ) :
    (m.spaceCowFault p va).1 = false := by
  rw [spaceCowFault]
  split
  · rfl
  next hg =>
  have h0 := h.resolve_left (not_or.mp hg).2
  dsimp only
  split
  · rfl
  split
  · rfl
  split
  · rfl
  · next hn => exact absurd h0 hn

theorem write_of_store (h : (m.spaces p).cow = 0 ∨ (allocN m.heap 1).1 = 0) {va : ℕ} {v : UInt8}
    (hs : (m.store p va v).isSome) : (m.write p va v).isSome := by
  have hf := spaceCowFault_short h va
  rw [store] at hs
  cases hw : m.write p va v with
  | some => rfl
  | none =>
    rw [hw] at hs
    rcases hc : m.spaceCowFault p va with ⟨ok, m₁⟩
    rw [hc] at hf hs
    cases ok with
    | true => cases hf
    | false => exact hs

theorem store_of_write {va : ℕ} {v : UInt8} (hs : (m.write p va v).isSome) :
    (m.store p va v).isSome := by
  rw [store]
  cases hw : m.write p va v with
  | some => rfl
  | none =>
    rw [hw] at hs
    cases hs

end Paging.Mmu

namespace Kernel

open Mmu

variable {H : Type} [PageAlloc H] [UsageStats H] {k k' : Kernel H} {frame : Registers}
  {slot : Fin kMaxTask}

/-- What others see of the kernel is as before: how much of the heap is in use, the notes, the
counts of the groups, and the space of the caller, which can store wherever it could. -/
structure NoTrace (k k' : Kernel H) : Prop where
  /-- No page is lost. -/
  used : used k'.mmu.heap = used k.mmu.heap
  /-- The notes are as they were, -/
  done : ∀ i, (k'.tasks i).done = (k.tasks i).done
  /-- and so are the counts of the groups, -/
  refs : ∀ g, (k'.mmu.groups g).refs = (k.mmu.groups g).refs
  /-- the space of the caller, -/
  caller : k'.space = k.space
  space : k'.mmu.spaces k.space = k.mmu.spaces k.space
  /-- and its tables. -/
  tables : ∀ h, k'.mmu.tables ((k.mmu.spaces k.space).pt h)
    = k.mmu.tables ((k.mmu.spaces k.space).pt h)
  /-- It can store where it could. -/
  writes : ∀ va v, (k.mmu.store k.space va v).isSome → (k'.mmu.store k.space va v).isSome

theorem NoTrace.refl (k : Kernel H) : NoTrace k k :=
  ⟨rfl, fun _ => rfl, fun _ => rfl, rfl, rfl, fun _ => rfl, fun _ _ h => h⟩

/-- A fork that makes no process leaves no trace. -/
def LeavesNoTrace (k : Kernel H) (frame : Registers) : Prop :=
  (k.forkUser frame).1 = 0 → NoTrace k (k.forkUser frame).2

/-- The caller is a process whose space is in order: its tables are out and are those that the
processor walks, and so is its group. `g_boot` is in the image of the kernel and no page of the
heap. -/
structure Grounded (k : Kernel H) : Prop where
  /-- The caller is in use. -/
  state : (k.tasks k.current).state ≠ .free
  /-- Its space is out, -/
  live : (live k.mmu.heap k.space).isSome
  /-- so are its tables, -/
  tables : ∀ h, (PageAlloc.live k.mmu.heap ((k.mmu.spaces k.space).pt h)).isSome
  /-- which the processor walks, -/
  link : ∀ h, (k.mmu.spaces k.space).link h = (k.mmu.spaces k.space).pt h
  /-- and so is its group. -/
  group : (k.mmu.spaces k.space).cow ≠ 0 →
    (PageAlloc.live k.mmu.heap (k.mmu.spaces k.space).cow).isSome
  /-- `g_boot` is no page of the heap. -/
  boot : pageAt k.mmu.heap 0 ≠ k.mmu.boot

/-- No note is about the number of the slot, and the slot holds none. -/
structure Unnoted (k : Kernel H) (slot : Fin kMaxTask) : Prop where
  others : ∀ i, ∀ n ∈ (k.tasks i).done, n.pid ≠ slot + 1
  own : (k.tasks slot).done = []

/-- The fork stops before it has taken anything that it does not give back: at the first page of the
space, or at the page of the group that the parent needs. -/
def StopsEarly (k : Kernel H) : Prop :=
  pageAt k.mmu.heap 0 = 0 ∨
    HasPages k.mmu.heap 7 ∧ (k.mmu.spaces k.space).cow = 0 ∧ pageAt k.mmu.heap 7 = 0

/-- The fork is refused at once, or makes a process, or purges nothing and stops early. -/
def Clean (k : Kernel H) (frame : Registers) : Prop :=
  (k.space = 0 ∨ frame.fromUser = false ∨ k.freeSlot = none) ∨ ForkRoom k ∨
    ∃ slot, k.freeSlot = some slot ∧ Unnoted k slot ∧ StopsEarly k

omit [UsageStats H] in
theorem Grounded.toCaller (hg : Grounded k) (hu : frame.fromUser = true) : Caller k frame := by
  refine ⟨hg.state, hu, hg.live, fun h h0 => ?_⟩
  have := hg.tables h
  rw [h0, live_zero] at this
  cases this

/-! ## The notes -/

omit [PageAlloc H] [UsageStats H] in
/-- The lists of notes are as before when there was nothing to purge. -/
theorem done_iff {m : Mmu H} {t : Task} (ht : t.done = []) :
    (∀ i, ((((k.purgeNotes (slot + 1)).setMmu m).setTask slot t).tasks i).done
      = (k.tasks i).done) ↔ Unnoted k slot := by
  have hself : ((((k.purgeNotes (slot + 1)).setMmu m).setTask slot t).tasks slot).done = [] := by
    rw [setTask_tasks, Function.update_self, ht]
  have hother : ∀ i, i ≠ slot →
      ((((k.purgeNotes (slot + 1)).setMmu m).setTask slot t).tasks i).done
        = (k.tasks i).done.filter fun n : Note => n.pid ≠ slot + 1 := fun i hi => by
    rw [setTask_tasks, Function.update_of_ne hi]
    rfl
  constructor
  · intro h
    have hown : (k.tasks slot).done = [] := (h slot).symm.trans hself
    refine ⟨fun i n hn => ?_, hown⟩
    by_cases hi : i = slot
    · rw [hi, hown] at hn
      cases hn
    · have := List.filter_eq_self.mp ((hother i hi).symm.trans (h i)) n hn
      simpa using this
  · intro h i
    by_cases hi : i = slot
    · rw [hi, hself, h.own]
    · rw [hother i hi]
      exact List.filter_eq_self.mpr fun n hn => by simpa using h.others i n hn

omit [PageAlloc H] [UsageStats H] in
theorem space_setTask {m : Mmu H} {t : Task} (hslot : k.freeSlot = some slot)
    (hs : (k.tasks k.current).state ≠ .free) :
    (((k.purgeNotes (slot + 1)).setMmu m).setTask slot t).space = k.space := by
  have hne : k.current ≠ slot := by
    intro h
    exact hs (h ▸ (freeSlot_eq_some hslot).2)
  have : (((k.purgeNotes (slot + 1)).setMmu m).setTask slot t).tasks k.current
      = (k.purgeNotes (slot + 1)).tasks k.current := Function.update_of_ne hne _ _
  change ((((k.purgeNotes (slot + 1)).setMmu m).setTask slot t).tasks k.current).sp = _
  rw [this]
  rfl

/-- **Nothing has changed** when the heap is as full as it was and the spaces and their tables are
as they were, and the caller could store only where it needs no page for it. -/
theorem noTrace_of {m : Mmu H} {t : Task} (hslot : k.freeSlot = some slot) (hg : Grounded k)
    (ht : t.done = []) (hn : Unnoted k slot) (hu : used m.heap = used k.mmu.heap)
    (hgroups : m.groups = k.mmu.groups) (hspace : m.spaces k.space = k.mmu.spaces k.space)
    (htab : ∀ h, m.tables ((k.mmu.spaces k.space).pt h)
      = k.mmu.tables ((k.mmu.spaces k.space).pt h))
    (hshort : (k.mmu.spaces k.space).cow = 0 ∨ (allocN k.mmu.heap 1).1 = 0) :
    NoTrace k (((k.purgeNotes (slot + 1)).setMmu m).setTask slot t) where
  used := hu
  done := (done_iff ht).mpr hn
  refs g := congrArg (fun f => (f g).refs) hgroups
  caller := space_setTask hslot hg.state
  space := hspace
  tables := htab
  writes va v h := by
    refine store_of_write ?_
    have := write_isSome_congr hspace (fun h => by rw [hg.link]; exact htab h) va v
    exact this.trans (write_of_store hshort h)

/-! ## The three ways to fail -/

/-- No space is made: the pages taken for it are lost. -/
theorem noTrace_noSpace_iff {m : Mmu H} (hslot : k.freeSlot = some slot) (hg : Grounded k)
    (hspace : k.mmu.spaceCreate = (0, m)) :
    NoTrace k (((k.purgeNotes (slot + 1)).setMmu m).setTask slot .zero) ↔
      Unnoted k slot ∧ StopsEarly k := by
  obtain ⟨n, hm, hn⟩ := spaceCreate_fail (m := k.mmu) (by rw [hspace])
  rw [hspace] at hm
  obtain rfl : m = k.mmu.setHeap (takePages k.mmu.heap (n + 1)) := hm
  have hfew : ¬HasPages k.mmu.heap 7 := by
    intro h
    have := spaceCreate_of_hasPages h
    rw [hspace] at this
    exact h.1 (congrArg Prod.fst this).symm
  constructor
  · intro h
    refine ⟨(done_iff rfl).mp h.done, Or.inl ?_⟩
    by_contra h0
    exact (used_lt_takePages k.mmu.heap n h0).ne' h.used
  · rintro ⟨hun, h0 | ⟨h7, -⟩⟩
    · obtain rfl := hn h0
      exact noTrace_of hslot hg rfl hun (used_fail _ 1 (by decide) h0) rfl rfl (fun _ => rfl)
        (Or.inr h0)
    · exact absurd h7 hfew

/-- The page for the group is missing: all comes back, but a parent that had strayed is out of its
old group. -/
theorem noTrace_noShare_iff {sp : ℕ} {m m' : Mmu H} (hslot : k.freeSlot = some slot)
    (hg : Grounded k) (hc : Caller k frame) (hspace : k.mmu.spaceCreate = (sp, m)) (hsp : sp ≠ 0)
    (hshare : m.spaceShareUser sp k.space = (false, m')) :
    NoTrace k (((k.purgeNotes (slot + 1)).setMmu (m'.spaceDestroy sp)).setTask slot
      { Task.zero with sp := sp }) ↔ Unnoted k slot ∧ StopsEarly k := by
  have h7 : HasPages k.mmu.heap 7 := by
    by_contra h
    have := spaceCreate_of_not_hasPages h
    rw [hspace] at this
    exact hsp this
  obtain ⟨hsp0, hheap, hgroups, hboot, hspaces, htables, hcow0, hpages⟩ :=
    spaceCreate_keeps h7 hspace
  obtain ⟨hlive, hpne⟩ := h7.ne_of_live hg.live
  have hne : sp ≠ k.space := fun h => hpne 0 (by decide) (hsp0.symm.trans h)
  have hparent : m.spaces k.space = k.mmu.spaces k.space := hspaces _ hne.symm
  have henter := spaceShareUser_fail hsp hc.space_ne_zero hne
    (fun h => by rw [hparent]; exact hc.tables h) hshare
  obtain ⟨hcow, hpage, rfl⟩ := enterGroup_fail henter
  have hbootne : sp ≠ (m.leaveGroup k.space).boot := by
    rw [leaveGroup_boot, hboot, hsp0]
    exact hg.boot
  obtain ⟨m'', hm'', hdheap, hdspaces, hdtables, -, hdgroups, -⟩ :=
    spaceDestroy_eq ((m.leaveGroup k.space).setHeap (allocN (m.leaveGroup k.space).heap 1).2) hsp
      hbootne
  rw [hm'']
  have hspace' : m''.spaces k.space = (m.leaveGroup k.space).spaces k.space := hdspaces _ hne.symm
  constructor
  · intro h
    have h0 : (k.mmu.spaces k.space).cow = 0 := by
      rw [← h.space]
      exact (congrArg Space.cow hspace').trans hcow
    have hstray : ¬Strayed m k.space := fun hs => hs.1 (hparent ▸ h0)
    rw [leaveGroup_of_not_strayed hstray, hheap] at hpage
    exact ⟨(done_iff rfl).mp h.done, Or.inr ⟨h7, h0, hpage⟩⟩
  · rintro ⟨hun, h0 | ⟨-, h0, -⟩⟩
    · exact absurd h0 h7.1
    have hstray : ¬Strayed m k.space := fun hs => hs.1 (hparent ▸ h0)
    rw [leaveGroup_of_not_strayed hstray] at hpage hdheap hspace' hdtables hdgroups
    rw [setHeap_spaces, hcow0, if_pos (Or.inl rfl), if_pos rfl, List.nil_append] at hdheap
    rw [setHeap_spaces, hcow0, if_pos rfl] at hdgroups
    have hbill : Bill {p | (PageAlloc.live k.mmu.heap p).isSome} (used k.mmu.heap) m''.heap 0 := by
      have hperm : (List.range 7).Perm [5, 6, 1, 2, 3, 4, 0] := by decide
      have hseven : ((List.range 7).map (pageAt k.mmu.heap) : Multiset ℕ)
          = (ownPages m sp ++ spacePages m sp : List ℕ) := by
        rw [hpages]
        exact Multiset.coe_eq_coe.mpr (hperm.map _)
      have hb := (Bill.zero k.mmu.heap).takePages h7
      rw [hseven, ← hheap] at hb
      rw [hdheap]
      exact (hb.fail (by decide) hpage).freeAll
    refine noTrace_of hslot hg rfl hun hbill.used_eq ?_ (hspace'.trans hparent) (fun h => ?_)
      (Or.inl h0)
    · exact hdgroups.trans hgroups
    · rw [hdtables]
      obtain ⟨-, hptne⟩ := h7.ne_of_live (hg.tables h)
      exact htables _ (hptne 5 (by decide)).symm (hptne 6 (by decide)).symm

/-- The child has no stack, and is in the group of its parent by then. -/
theorem not_noTrace_noStack {sp : ℕ} {m m' m'' : Mmu H} (hg : Grounded k) (hc : Caller k frame)
    (hspace : k.mmu.spaceCreate = (sp, m)) (hsp : sp ≠ 0)
    (hshare : m.spaceShareUser sp k.space = (true, m'))
    (hstack : m'.kframeAllocN (kKernelAlloc / 4096) = (0, m'')) (t : Task) :
    ¬NoTrace k (((k.purgeNotes (slot + 1)).setMmu m'').setTask slot t) ∧ ¬StopsEarly k := by
  have h7 : HasPages k.mmu.heap 7 := by
    by_contra h
    have := spaceCreate_of_not_hasPages h
    rw [hspace] at this
    exact hsp this
  obtain ⟨hsp0, hheap, hgroups, -, hspaces, -⟩ := spaceCreate_keeps h7 hspace
  obtain ⟨-, hpne⟩ := h7.ne_of_live hg.live
  have hne : sp ≠ k.space := fun h => hpne 0 (by decide) (hsp0.symm.trans h)
  have hparent : m.spaces k.space = k.mmu.spaces k.space := hspaces _ hne.symm
  obtain ⟨g, m₁, henter, hg0, hcow, hrefs⟩ := spaceShareUser_done hsp hc.space_ne_zero hne
    (fun h => by rw [hparent]; exact hc.tables h) hshare
  obtain rfl : m'.setHeap (allocN m'.heap (kKernelAlloc / 4096)).2 = m'' := (Prod.mk.inj hstack).2
  have hpage : ¬(((m.leaveGroup k.space).spaces k.space).cow = 0 ∧
      (allocN (m.leaveGroup k.space).heap 1).1 = 0) := fun h => by
    have := (enterGroup_spec (m.leaveGroup k.space) k.space hne).1.mpr h
    rw [henter] at this
    exact hg0 this
  constructor
  · intro ht
    have hsame : (k.mmu.spaces k.space).cow = g := by
      rw [← hcow, ← ht.space]
      rfl
    have hsame' : (m.spaces k.space).cow = g := by rw [hparent, hsame]
    have hcount : (m'.groups g).refs = (m.groups g).refs := by
      rw [hgroups, ← ht.refs g]
      rfl
    by_cases hstray : Strayed m k.space
    · -- the new group would have to be the old one, which is still out
      have hleft := (leaveGroup_cow m k.space).mpr (Or.inr hstray)
      have hne0 := fun h0 => hpage ⟨hleft, h0⟩
      obtain ⟨hnew, hone⟩ := enterGroup_new hleft hne0
      rw [henter] at hnew hone
      dsimp only at hnew hone
      have htwo : (m.groups g).refs = 2 := by rw [← hcount, hrefs, hnew, hone]
      have hkeep : (m.leaveGroup k.space).heap = takePages k.mmu.heap 7 := by
        rw [leaveGroup_heap, leaveHeap, if_pos hstray, groupPages, hsame', htwo, if_neg (by decide),
          List.foldl_nil, hheap]
      rw [hkeep] at hnew hne0
      obtain ⟨hout, -⟩ := h7.ne_of_live (hg.group (by rw [hsame]; exact hg0))
      rw [hsame, hnew, allocN_fresh _ 1 (by decide) hne0] at hout
      cases hout
    · rw [leaveGroup_of_not_strayed hstray, enterGroup_of_cow (by rw [hsame']; exact hg0)] at henter
      obtain rfl := (Prod.mk.inj henter).2
      omega
  · rintro (h0 | ⟨-, h0, hpage0⟩)
    · exact h7.1 h0
    · have hstray : ¬Strayed m k.space := fun hs => hs.1 (hparent ▸ h0)
      rw [leaveGroup_of_not_strayed hstray, hheap, hparent] at hpage
      exact hpage ⟨h0, hpage0⟩

/-- **A failed fork.** It leaves no trace if and only if it is refused at once, or there was no note
to purge and it misses the first page of the space, or the page of a group that the parent has not
got. -/
theorem forkUser_noTrace_iff (hg : k.space ≠ 0 → Grounded k) :
    LeavesNoTrace k frame ↔ Clean k frame := by
  by_cases hr : k.space = 0 ∨ frame.fromUser = false ∨ k.freeSlot = none
  · have hsame : k.forkUser frame = (0, k) := by
      rw [forkUser]
      rcases hr with h | h | h
      · exact if_pos h
      · dsimp only
        split
        · rfl
        · rw [h]
          rfl
      · dsimp only
        split
        · rfl
        · split
          · rfl
          · rw [h]
    refine iff_of_true (fun _ => ?_) (Or.inl hr)
    rw [hsame]
    exact NoTrace.refl k
  obtain ⟨hsp, hu, hslot⟩ : k.space ≠ 0 ∧ frame.fromUser = true ∧ k.freeSlot ≠ none := by
    obtain ⟨h1, h2⟩ := not_or.mp hr
    obtain ⟨h2, h3⟩ := not_or.mp h2
    exact ⟨h1, by simpa using h2, h3⟩
  have hg := hg hsp
  have hc := hg.toCaller hu
  by_cases hroom : ForkRoom k
  · exact iff_of_true (fun h0 => absurd h0 ((forkUser_ne_zero_iff hc).mpr hroom))
      (Or.inr (Or.inl hroom))
  have hzero : (k.forkUser frame).1 = 0 := by
    by_contra h
    exact hroom ((forkUser_ne_zero_iff hc).mp h)
  have hclean : ∀ {slot}, k.freeSlot = some slot →
      (Clean k frame ↔ Unnoted k slot ∧ StopsEarly k) := by
    intro slot hs
    rw [Clean, or_iff_right hr, or_iff_right hroom]
    constructor
    · rintro ⟨slot', hs', h⟩
      rw [hs] at hs'
      cases hs'
      exact h
    · exact fun h => ⟨slot, hs, h⟩
  rw [LeavesNoTrace, imp_iff_right hzero]
  have hspec := k.forkUser_spec frame
  generalize k.forkUser frame = r at hspec hzero ⊢
  cases hspec with
  | refused h => exact absurd h hr
  | noSpace hs hspace => rw [hclean hs, noTrace_noSpace_iff hs hg hspace]
  | noShare hs hspace h0 hshare => rw [hclean hs, noTrace_noShare_iff hs hg hc hspace h0 hshare]
  | noStack hs hspace h0 hshare hstack =>
    obtain ⟨h1, h2⟩ := not_noTrace_noStack hg hc hspace h0 hshare hstack .zero
    rw [hclean hs]
    exact iff_of_false h1 fun h => h2 h.2
  | forked => cases hzero

/-! ## A heap that is nearly full -/

theorem first_dvd : 4096 ∣ 4096 := by decide

theorem first_pos : 0 < 4096 := by decide

/-- One process in user mode, and pages up to `limit` of which its space has seven. -/
def cramped (limit : ℕ) (hl : limit < 2 ^ 32) : Kernel (Listed Bump) where
  mmu := { bare with
    heap := ⟨.fresh 4096 limit first_dvd first_pos hl, [], List.nodup_nil,
      fun _ => iff_of_false List.not_mem_nil Bool.false_ne_true⟩
    boot := 8 : Mmu (Listed Bump) }.spaceCreate.2
  pipes _ := ⟨0, 0, none, none, false⟩
  tasks i := if i = 0 then { Task.zero with pid := 1, state := .running, sp := 4096, armed := true }
    else Task.zero
  current := 0

theorem grounded_cramped_full : Grounded (cramped 65536 (by decide)) := by
  refine ⟨by decide +kernel, by decide +kernel, fun h => ?_, fun h => ?_,
    fun h => ?_, by decide +kernel⟩
  · cases h <;> decide +kernel
  · cases h <;> decide +kernel
  · revert h
    decide +kernel

theorem grounded_cramped : Grounded (cramped 86016 (by decide)) := by
  refine ⟨by decide +kernel, by decide +kernel, fun h => ?_, fun h => ?_,
    fun h => ?_, by decide +kernel⟩
  · cases h <;> decide +kernel
  · cases h <;> decide +kernel
  · revert h
    decide +kernel

/-- Without a single page left the fork fails and leaves no trace. -/
theorem leavesNoTrace_full : LeavesNoTrace (cramped 65536 (by decide)) userFrame :=
  (forkUser_noTrace_iff fun _ => grounded_cramped_full).mpr
    (Or.inr (Or.inr ⟨1, by decide +kernel, ⟨by decide +kernel, by decide +kernel⟩,
      Or.inl (by decide +kernel)⟩))

/-- With three pages left they are lost. -/
theorem fork_loses_pages :
    Grounded (cramped 86016 (by decide)) ∧
      ((cramped 86016 (by decide)).forkUser userFrame).1 = 0 ∧
      used ((cramped 86016 (by decide)).forkUser userFrame).2.mmu.heap
        = used (cramped 86016 (by decide)).mmu.heap + 3 * 4096 ∧
      ¬LeavesNoTrace (cramped 86016 (by decide)) userFrame := by
  have hzero : ((cramped 86016 (by decide)).forkUser userFrame).1 = 0 := by decide +kernel
  have hused : used ((cramped 86016 (by decide)).forkUser userFrame).2.mmu.heap
      = used (cramped 86016 (by decide)).mmu.heap + 3 * 4096 := by decide +kernel
  refine ⟨grounded_cramped, hzero, hused, fun h => ?_⟩
  have := (h hzero).used
  omega

end Kernel

end Aurisys
