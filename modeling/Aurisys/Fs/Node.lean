import Aurisys.Fs.Layout
import Aurisys.Fs.Listing

/-!
# Nodes of the ext4 backend

What `vfs.cpp` makes of the entries of a directory: `ext_readdir`, which turns an index into an
entry, and `readdir` over it, which reads a mounted tree instead where there is one.

`ext_readdir` counts in its callback. The count goes up before it is compared with the index, so the
first entry is the answer for the index 0 and for the index 1, and every later one comes an index
late.

## Main definitions

* `extReaddir`, `readdir`
* `Enumerates` — the entry for an index is the one at that place

## Main results

* `exec_readdir` — which entry an index gets
* `enumerates_iff`
-/

namespace Aurisys

open Bytes Fallible

namespace Fs

/-- `vfs::node`, with what the ext4 backend puts into it. -/
structure Node where
  name : Str
  inode : ℕ
  type : ℕ
  size : ℕ
deriving DecidableEq

/-- `hit`, which `ext_readdir` hands to its callback. -/
structure Hit where
  want : ℕ
  seen : ℕ
  found : Option Dirent

/-- The callback of `ext_readdir`. A name is cut to the 63 bytes there is room for. -/
def seeEntry (d : Dirent) (h : Hit) : Bool × Hit :=
  let h := if h.seen ≠ h.want then ⟨h.want, h.seen + 1, h.found⟩ else h
  if h.seen ≠ h.want then (true, h)
  else (false, ⟨h.want, h.seen, some ⟨d.ino, d.name.take 63, d.type⟩⟩)

/-- The size of an inode, or 0 if it cannot be had. -/
def statSize (ino : ℕ) : Act ℕ := do
  match ← attempt (getstat ino) with
  | some st => return st.size
  | none => return 0

/-- `ext_readdir`. Where `list_dir` fails it has found nothing. -/
def extReaddir (dirIno index : ℕ) : Act Node := do
  let r ← attempt (listDir seeEntry dirIno ⟨index, 0, none⟩)
  let d ← ofOption (r.bind fun r => r.2.found)
  let size ← statSize d.ino
  return ⟨d.name, d.ino, d.type, size⟩

/-- `vfs::readdir`, with the `readdir` of the tree that is mounted on the node, if there is one. -/
def readdir (mounted : Option (ℕ → Act Node)) (n : Node) (index : ℕ) : Act Node :=
  match mounted with
  | some tree => tree index
  | none => extReaddir n.inode index

variable {s : Fs} {n : Node} {es : List Dirent}

/-- What is told about an entry. -/
def told (d : Dirent) : Str × ℕ × ℕ := (d.name.take 63, d.ino, d.type)

/-- What a node tells about an entry. -/
def Node.told (n : Node) : Str × ℕ × ℕ := (n.name, n.inode, n.type)

/-- `readdir` gives the entry at the place of the index, for every index, and nothing behind the
last. -/
def Enumerates (s : Fs) (n : Node) (es : List Dirent) : Prop :=
  ∀ i, (exec (readdir none n i) s).1.map Node.told = es[i]?.map told

/-- The callback finds an entry when it has counted up to the index. -/
theorem callAll_seeEntry (es : List Dirent) (want seen count : ℕ) (hseen : seen < want) :
    (callAll seeEntry es count ⟨want, seen, none⟩).2.2.found =
      es[want - seen - 1]?.map fun d => ⟨d.ino, d.name.take 63, d.type⟩ := by
  induction es generalizing seen count with
  | nil => rfl
  | cons d es ih =>
    have hne : seen ≠ want := by omega
    rw [callAll, seeEntry]
    simp only [if_pos hne]
    by_cases hlast : seen + 1 = want
    · have hidx : want - seen - 1 = 0 := by omega
      simp only [hlast, ne_eq, not_true_eq_false, if_false]
      rw [hidx]
      rfl
    · simp only [ne_eq, hlast, not_false_eq_true, if_true]
      have hidx : want - seen - 1 = want - (seen + 1) - 1 + 1 := by omega
      rw [ih (seen + 1) (count + 1) (by omega), hidx, List.getElem?_cons_succ]

/-- The index 0 gets the first entry, and so does the index 1. -/
theorem found_seeEntry (es : List Dirent) (want : ℕ) :
    (callAll seeEntry es 0 ⟨want, 0, none⟩).2.2.found =
      es[want - 1]?.map fun d => ⟨d.ino, d.name.take 63, d.type⟩ := by
  rcases Nat.eq_zero_or_pos want with rfl | hpos
  · cases es with
    | nil => rfl
    | cons d es => rfl
  · exact callAll_seeEntry es want 0 0 hpos

theorem exec_statSize (ino : ℕ) (s : Fs) : ∃ size s', exec (statSize ino) s = (some size, s') := by
  rw [statSize, exec_bind, exec_attempt]
  generalize (exec (getstat ino) s).1 = r
  cases r with
  | none => exact ⟨_, _, rfl⟩
  | some st => exact ⟨_, _, rfl⟩

/-- **Which entry an index gets.** -/
theorem exec_readdir (h : s.entries n.inode = some es) (i : ℕ) :
    (exec (readdir none n i) s).1.map Node.told = es[i - 1]?.map told := by
  have hlist := exec_listDir h seeEntry ⟨i, 0, none⟩
  have hfound := found_seeEntry es i
  change (exec (extReaddir n.inode i) s).1.map Node.told = _
  rw [extReaddir, exec_bind, exec_attempt]
  generalize (exec (listDir seeEntry n.inode ⟨i, 0, none⟩) s).2 = s₁
  dsimp only
  rw [hlist, Option.bind_some, hfound]
  cases es[i - 1]? with
  | none => rfl
  | some d =>
    simp only [Option.map_some, ofOption]
    obtain ⟨size, s₂, hsize⟩ := exec_statSize d.ino s₁
    have hpure : exec (pure ⟨d.ino, d.name.take 63, d.type⟩ : Act Dirent) s₁ = (some _, s₁) := rfl
    rw [exec_bind_of_some hpure, exec_bind_of_some hsize]
    rfl

/-- **Every entry once** is what a caller sees who counts up from 0 only where there is none to be
seen. -/
theorem enumerates_iff (h : s.entries n.inode = some es) : Enumerates s n es ↔ es = [] := by
  constructor
  · intro henum
    by_contra hne
    have hlen := List.length_pos_iff.mpr hne
    have hlast := henum es.length
    rw [exec_readdir h, List.getElem?_eq_none le_rfl,
      List.getElem?_eq_getElem (show es.length - 1 < es.length by omega)] at hlast
    simp at hlast
  · rintro rfl i
    rw [exec_readdir h]
    rfl

/-- The root of a volume. -/
def rootNode : Node := ⟨[], kRootIno, 2, 1024⟩

/-- The entries of an empty root. -/
def dots : List Dirent := [⟨kRootIno, [Path.dot], 2⟩, ⟨kRootIno, [Path.dot, Path.dot], 2⟩]

theorem entries_small : small.entries kRootIno = some dots := by decide +kernel

theorem enumerates_small : Enumerates small rootNode dots ↔ dots = [] :=
  enumerates_iff (n := rootNode) entries_small

/-- The directory has two entries, and there is an answer for the index 2. -/
theorem third_of_two : small.entries rootNode.inode = some dots ∧
    ¬Enumerates small rootNode dots := by
  refine ⟨entries_small, fun h => ?_⟩
  have hthird : (exec (readdir none rootNode 2) small).1.map Node.told =
      some ([Path.dot, Path.dot], kRootIno, 2) := by decide +kernel
  have := h 2
  rw [hthird] at this
  exact absurd this (by decide)

end Fs

end Aurisys
