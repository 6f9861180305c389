import Aurisys.Lib.Bytes
import Aurisys.Lib.Pages
import Mathlib.Data.Fin.VecNotation
import Mathlib.Tactic.Simps.Basic

/-!
# Address spaces and copy on write

The user half of an address space is two page tables, one for the code and the stack and one for
the arena. `space_share_user` lets a child use the tables of its parent: both join a *group* that
holds the tables, with every present entry read only, and leave it at their first store, when
`space_cow_fault` copies the tables and the page stored to.

## Memory

The objects of the kernel live in pages of the heap. Spaces, tables and groups are kept in maps from
the address of their page, and the contents of all other pages in one byte memory. A page directory
is the fixed map of the kernel but for the two entries `link_tables` writes, and these two are the
fields `linkCode` and `linkHeap` of the space: they are what the processor walks. The translation
buffer is not modelled; every change of an entry in use is followed by a flush in the source.

## Main definitions

* `Mmu` — spaces, tables, groups, frames, and the heap they come from
* `spaceCreate`, `spaceShareUser`, `spaceCowFault`, `spaceDestroy`, `mapPage`
* `load`, `store` — what user code sees
-/

namespace Aurisys

open Bytes

namespace Paging

/-- The two 2 MiB slots of the user half. -/
inductive Half where
  | code
  | heap
deriving DecidableEq

/-- A page table entry. -/
structure Pte where
  frame : ℕ
  present : Bool
  rw : Bool
  user : Bool
deriving DecidableEq

def Pte.zero : Pte := ⟨0, false, false, false⟩

abbrev Table := Fin 512 → Pte

def Table.zero : Table := fun _ => .zero

/-- The entry without its write bit, when it is present. -/
def Pte.protect (e : Pte) : Pte := if e.present then { e with rw := false } else e

/-- `cow_group`. -/
structure CowGroup where
  ptCode : ℕ
  ptHeap : ℕ
  refs : ℕ

def CowGroup.pt (g : CowGroup) : Half → ℕ
  | .code => g.ptCode
  | .heap => g.ptHeap

/-- `space`. -/
structure Space where
  pd : Fin 4 → ℕ
  /-- `pd[1][0]`. -/
  linkCode : ℕ
  /-- `pd[1][1]`. -/
  linkHeap : ℕ
  ptCode : ℕ
  ptHeap : ℕ
  refcount : ℕ
  cow : ℕ

def Space.pt (s : Space) : Half → ℕ
  | .code => s.ptCode
  | .heap => s.ptHeap

def Space.link (s : Space) : Half → ℕ
  | .code => s.linkCode
  | .heap => s.linkHeap

/-- The memory management of the kernel. -/
structure Mmu (H : Type) where
  heap : H
  spaces : ℕ → Space
  tables : ℕ → Table
  groups : ℕ → CowGroup
  /-- The contents of the frames. -/
  mem : Bytes
  /-- `paging::g_current`. -/
  current : ℕ
  /-- The address of `g_boot`, which is in the kernel image. -/
  boot : ℕ

namespace Mmu

variable {H : Type}

@[simps -fullyApplied] def setSpace (m : Mmu H) (p : ℕ) (s : Space) : Mmu H :=
  { m with spaces := Function.update m.spaces p s }

@[simps -fullyApplied] def setTable (m : Mmu H) (p : ℕ) (t : Table) : Mmu H :=
  { m with tables := Function.update m.tables p t }

@[simps -fullyApplied] def setGroup (m : Mmu H) (p : ℕ) (g : CowGroup) : Mmu H :=
  { m with groups := Function.update m.groups p g }

@[simps -fullyApplied] def setHeap (m : Mmu H) (h : H) : Mmu H := { m with heap := h }

@[simps -fullyApplied] def setMem (m : Mmu H) (mem : Bytes) : Mmu H := { m with mem := mem }

/-! ## The kernel's operations -/

section

variable [PageAlloc H]

/-- `kframe_alloc_n`. -/
def kframeAllocN (m : Mmu H) (pages : ℕ) : ℕ × Mmu H :=
  let r := PageAlloc.allocN m.heap pages
  (r.1, m.setHeap r.2)

/-- `kframe_alloc`. -/
def kframeAlloc (m : Mmu H) : ℕ × Mmu H := m.kframeAllocN 1

def kfree (m : Mmu H) (p : ℕ) : Mmu H := m.setHeap (PageAlloc.free m.heap p)

/-- `kframe_free`. -/
def kframeFree (m : Mmu H) (p : ℕ) : Mmu H := m.kfree p

end

/-- `user_table`: the half an address is in. -/
def userTable (va : ℕ) : Option Half :=
  if 0x40000000 ≤ va ∧ va < 0x40200000 then some .code
  else if 0x40200000 ≤ va ∧ va < 0x40400000 then some .heap
  else none

/-- `(va >> 12) & 0x1FF`. -/
def pteIndex (va : ℕ) : Fin 512 := ⟨va / 4096 % 512, Nat.mod_lt _ (by decide)⟩

/-- `a & ~0xFFF`. -/
def pageOf (a : ℕ) : ℕ := a / 4096 * 4096

def setCow (m : Mmu H) (s g : ℕ) : Mmu H := m.setSpace s { m.spaces s with cow := g }

/-- `link_tables`. -/
def linkTables (m : Mmu H) (s : ℕ) : Mmu H :=
  m.setSpace s { m.spaces s with linkCode := (m.spaces s).ptCode, linkHeap := (m.spaces s).ptHeap }

/-- `space_switch`. -/
def spaceSwitch (m : Mmu H) (s : ℕ) : Mmu H := if s = 0 then m else { m with current := s }

/-- `map_page`. -/
def mapPage (m : Mmu H) (s va frame : ℕ) (user : Bool) : Bool × Mmu H :=
  if s = 0 then (false, m)
  else
    match userTable va with
    | none => (false, m)
    | some h =>
      let pt := (m.spaces s).pt h
      let i := pteIndex va
      if (m.tables pt i).present ∧ (m.tables pt i).frame = pageOf frame then (true, m)
      else
        (true, m.setTable pt (Function.update (m.tables pt) i ⟨pageOf frame, true, true, user⟩))

/-- Map `n` pages from `va` on the frames from `pa` on, one after the other, as `map_image` does;
it stops at the first page that will not map. -/
def mapRange (m : Mmu H) (s va pa : ℕ) : ℕ → Bool × Mmu H
  | 0 => (true, m)
  | n + 1 =>
    match m.mapRange s va pa n with
    | (false, m) => (false, m)
    | (true, m) => m.mapPage s (va + n * 4096) (pa + n * 4096) true

section

variable [PageAlloc H]

/-- `space_create`. The address of the space, `0` when a page is missing; the pages taken by then
are not given back. -/
def spaceCreate (m : Mmu H) : ℕ × Mmu H :=
  let (s, m) := m.kframeAlloc
  if s = 0 then (0, m) else
  let (pd0, m) := m.kframeAlloc
  if pd0 = 0 then (0, m) else
  let (pd1, m) := m.kframeAlloc
  if pd1 = 0 then (0, m) else
  let (pd2, m) := m.kframeAlloc
  if pd2 = 0 then (0, m) else
  let (pd3, m) := m.kframeAlloc
  if pd3 = 0 then (0, m) else
  let (code, m) := m.kframeAlloc
  let (heap, m) := m.kframeAlloc
  if code = 0 ∨ heap = 0 then (0, m) else
  let m := (m.setTable code .zero).setTable heap .zero
  (s, m.setSpace s ⟨![pd0, pd1, pd2, pd3], code, heap, code, heap, 1, 0⟩)

/-- Take one from the count of a group; the last one out frees it and its tables. -/
def dropGroup (m : Mmu H) (g : ℕ) : Mmu H :=
  let m := m.setGroup g { m.groups g with refs := (m.groups g).refs - 1 }
  if (m.groups g).refs = 0 then
    ((m.kfree (m.groups g).ptCode).kfree (m.groups g).ptHeap).kfree g
  else m

/-- `space_destroy`. -/
def spaceDestroy (m : Mmu H) (s : ℕ) : Mmu H :=
  if s = 0 ∨ s = m.boot then m
  else
    let sp := m.spaces s
    let m :=
      if sp.cow ≠ 0 then
        let m :=
          if sp.ptCode ≠ (m.groups sp.cow).ptCode then (m.kfree sp.ptCode).kfree sp.ptHeap else m
        m.dropGroup sp.cow
      else (m.kfree sp.ptCode).kfree sp.ptHeap
    let m := m.setSpace s { sp with cow := 0, ptCode := 0, ptHeap := 0, pd := fun _ => 0 }
    ((((m.kfree (sp.pd 0)).kfree (sp.pd 1)).kfree (sp.pd 2)).kfree (sp.pd 3)).kfree s

/-- A parent that has its own tables again is in its old group in name only, and leaves it. -/
def leaveGroup (m : Mmu H) (s : ℕ) : Mmu H :=
  let g := (m.spaces s).cow
  if g ≠ 0 ∧ (m.spaces s).ptCode ≠ (m.groups g).ptCode then (m.dropGroup g).setCow s 0 else m

/-- The group of a parent, made of its own tables when it has none. -/
def enterGroup (m : Mmu H) (s : ℕ) : ℕ × Mmu H :=
  if (m.spaces s).cow ≠ 0 then ((m.spaces s).cow, m)
  else
    let (g, m) := m.kframeAlloc
    if g = 0 then (0, m)
    else (g, (m.setGroup g ⟨(m.spaces s).ptCode, (m.spaces s).ptHeap, 1⟩).setCow s g)

/-- The loop of `space_share_user` over the tables of the group. -/
def protect (m : Mmu H) (g : ℕ) : Mmu H :=
  let code := (m.groups g).ptCode
  let m := m.setTable code fun i => (m.tables code i).protect
  let heap := (m.groups g).ptHeap
  m.setTable heap fun i => (m.tables heap i).protect

/-- The tail of `space_share_user`: the child gives its own tables back and uses those of the
group. -/
def attach (m : Mmu H) (child g : ℕ) : Mmu H :=
  let m := (m.kfree (m.spaces child).ptCode).kfree (m.spaces child).ptHeap
  let m := m.setSpace child { m.spaces child with
    ptCode := (m.groups g).ptCode, ptHeap := (m.groups g).ptHeap, cow := g }
  let m := m.linkTables child
  m.setGroup g { m.groups g with refs := (m.groups g).refs + 1 }

/-- `space_share_user`. -/
def spaceShareUser (m : Mmu H) (child parent : ℕ) : Bool × Mmu H :=
  if child = 0 ∨ parent = 0 ∨ child = parent ∨ (m.spaces parent).ptCode = 0 ∨
      (m.spaces parent).ptHeap = 0 then (false, m)
  else
    let (g, m) := (m.leaveGroup parent).enterGroup parent
    if g = 0 then (false, m)
    else (true, ((m.protect g).linkTables parent).attach child g)

/-- `unshare`. -/
def unshare (m : Mmu H) (s : ℕ) : Bool × Mmu H :=
  let g := (m.spaces s).cow
  if g = 0 then (true, m)
  else if (m.spaces s).ptCode ≠ (m.groups g).ptCode then (true, m)
  else
    let (code, m) := m.kframeAlloc
    let (heap, m) := m.kframeAlloc
    if code = 0 ∨ heap = 0 then (false, (m.kfree code).kfree heap)
    else
      let m := m.setTable code (m.tables (m.groups g).ptCode)
      let m := m.setTable heap (m.tables (m.groups g).ptHeap)
      let m := m.setSpace s { m.spaces s with ptCode := code, ptHeap := heap }
      (true, m.linkTables s)

/-- `space_cow_fault`. -/
def spaceCowFault (m : Mmu H) (s addr : ℕ) : Bool × Mmu H :=
  if s = 0 ∨ (m.spaces s).cow = 0 then (false, m)
  else
    let page := pageOf addr
    match userTable page with
    | none => (false, m)
    | some h =>
      let ent := m.tables ((m.spaces s).pt h) (pteIndex page)
      if !ent.present || !ent.user || ent.rw then (false, m)
      else
        let src := ent.frame
        let (nf, m) := m.kframeAlloc
        if nf = 0 then (false, m)
        else
          let m := m.setMem (memcpy m.mem nf m.mem src 4096)
          match m.unshare s with
          | (false, m) => (false, m.kframeFree nf)
          | (true, m) => (true, (m.mapPage s page nf true).2)

end

/-! ## User code -/

/-- The entry the processor finds for an address of the user half. -/
def walk (m : Mmu H) (s va : ℕ) : Option Pte :=
  (userTable va).map fun h => m.tables ((m.spaces s).link h) (pteIndex va)

/-- A load; `none` is a fault. -/
def load (m : Mmu H) (s va : ℕ) : Option UInt8 :=
  match m.walk s va with
  | some e => if e.present && e.user then some (m.mem (e.frame + va % 4096)) else none
  | none => none

/-- A store that is not retried; `none` is a fault. -/
def write (m : Mmu H) (s va : ℕ) (v : UInt8) : Option (Mmu H) :=
  match m.walk s va with
  | some e =>
    if e.present && e.user && e.rw then
      some (m.setMem (Function.update m.mem (e.frame + va % 4096) v))
    else none
  | none => none

/-- A store. A fault goes to `space_cow_fault`, and when that succeeds the instruction runs again;
otherwise the process dies and there is no store. -/
def store [PageAlloc H] (m : Mmu H) (s va : ℕ) (v : UInt8) : Option (Mmu H) :=
  match m.write s va v with
  | some m => some m
  | none =>
    match m.spaceCowFault s va with
    | (true, m) => m.write s va v
    | (false, _) => none

end Mmu

/-- The pages of the directory of `s`. -/
def spacePages {H : Type} (m : Mmu H) (s : ℕ) : List ℕ :=
  [(m.spaces s).pd 0, (m.spaces s).pd 1, (m.spaces s).pd 2, (m.spaces s).pd 3, s]

/-- The memory management before the first space, with pages from 4096 on. -/
def bare : Mmu Pages.Bump where
  heap := .fresh 4096 0x1000000 (by decide) (by decide) (by decide)
  spaces _ := ⟨fun _ => 0, 0, 0, 0, 0, 0, 0⟩
  tables _ := .zero
  groups _ := ⟨0, 0, 0⟩
  mem _ := 0
  current := 0
  boot := 0

end Paging

end Aurisys
