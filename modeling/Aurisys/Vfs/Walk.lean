import Aurisys.Fs.Truncate
import Aurisys.Vfs.Model

/-!
# Where a path leads

What `resolve` comes to does not depend on the buffers: it is a function of the volume and of the
trees that are mounted. From a node of a tree there is no way back to the volume. So if a walk ends
at a node of the volume nothing was mounted on its way, and the names lead to the same inode from
the root.

## Main definitions

* `sizeOf`, `findNode`, `walk` — what the calls come to
* `Vfs.leads` — what a path of a process leads to

## Main results

* `wp_vfsResolve`
* `walk_ext` — a walk to a node of the volume
-/

namespace Aurisys

open Bytes Fallible Path Fs

namespace Fs

/-- The size that a node gets. -/
def sizeOf (s : Fs) (ino : ℕ) : ℕ := if s.geo.IsIno ino then inodeSize (s.inodes ino) else 0

/-- The node under a name. -/
def findNode (s : Fs) (d : ℕ) (name : Str) : Option VNode :=
  (s.childEntry name d).map fun e => .ext ⟨name.take 63, e.ino, e.type, s.sizeOf e.ino⟩

/-- One step. -/
def walkIn (s : Fs) (cur : VNode) (mount : Option VTree) (name : Str) : Option VNode :=
  match mount, cur with
  | some t, _ => (t.findChild name).map .virt
  | none, .virt t => (t.findChild name).map .virt
  | none, .ext n => s.findNode n.inode name

/-- **Where some names lead.** -/
def walk (s : Fs) (ms : Mounts) : List Str → VNode → Option VTree → Option VNode
  | [], cur, _ => some cur
  | name :: names, cur, mount =>
    (s.walkIn cur mount name).bind fun child => s.walk ms names child (mountOf ms child.node)

variable {s t : Fs} {ms : Mounts} {names : List Str} {n m : Fs.Node}
  {mount : Option VTree} {ino : ℕ}

/-! ## The calls -/

/-- Getting the size does not change what is listed. -/
theorem wp_statSize_still (hg : s.geo.Ok) (h : Still s t) (ino : ℕ) :
    wp (statSize ino) (fun size u => Still s u ∧ size = s.sizeOf ino) (fun _ => False) t := by
  have hgt : t.geo.Ok := h.geo.symm ▸ hg
  rw [statSize, wp_bind, wp_attempt]
  have hspec := h.getstat hg ino
  have hsize : wp (getstat ino) (fun st _ => st.size = s.sizeOf ino) (fun _ => 0 =
      s.sizeOf ino) t := by
    rw [getstat, wp_bind, wp_loadInode hgt]
    refine ⟨fun hi => ?_, fun hn => ?_⟩
    · rw [wp_bind, wp_get, wp_pure, sizeOf, if_pos (h.geo ▸ hi), ← core_inodes h.core]
      exact (loaded_ino hgt hi).inodeSize
    · rw [sizeOf, if_neg (h.geo ▸ hn)]
  refine wp_mono (wp_and hspec hsize) ?_ ?_
  · exact fun st u hu => hu
  · exact fun u hu => hu

theorem wp_extFindNode (hg : s.geo.Ok) (h : Still s t) (d : ℕ) (name : Str) :
    wp (extFindNode d name) (fun r u => Still s u ∧ r = s.findNode d name) (fun _ => False) t := by
  rw [extFindNode]
  refine wp_attempt_listDir hg h fun r u hu hr => ?_
  rw [hr, findNode]
  cases s.childEntry name d with
  | none => exact ⟨hu, rfl⟩
  | some e =>
    dsimp only
    rw [wp_bind]
    refine wp_mono (wp_statSize_still hg hu e.ino) ?_ fun _ => id
    rintro size v ⟨hv, rfl⟩
    exact ⟨hv, rfl⟩

theorem wp_findIn (hg : s.geo.Ok) (h : Still s t) (cur : VNode) (mount : Option VTree)
    (name : Str) :
    wp (findIn cur mount name) (fun r u => Still s u ∧ r = s.walkIn cur mount name)
      (fun _ => False) t := by
  cases mount with
  | some tr => exact ⟨h, rfl⟩
  | none =>
    cases cur with
    | virt tr => exact ⟨h, rfl⟩
    | ext n => exact wp_extFindNode hg h n.inode name

/-- **The loop of `resolve`.** -/
theorem wp_resolveFrom (hg : s.geo.Ok) (h : Still s t) (names : List Str) (cur : VNode)
    (mount : Option VTree) : wp (resolveFrom ms names cur mount)
      (fun r u => Still s u ∧ r = s.walk ms names cur mount) (fun _ => False) t := by
  induction names generalizing cur mount t with
  | nil => exact ⟨h, rfl⟩
  | cons name names ih =>
    rw [resolveFrom, wp_bind]
    refine wp_mono (wp_findIn hg h cur mount name) ?_ fun _ => id
    rintro r u ⟨hu, rfl⟩
    rw [walk]
    cases s.walkIn cur mount name with
    | none => exact ⟨hu, rfl⟩
    | some child => exact ih hu child _

/-! ## Nodes of the volume -/

/-- There is no way back to the volume. -/
theorem walk_virt {tr : VTree} : s.walk ms names (.virt tr) mount ≠ some (.ext n) := by
  induction names generalizing tr mount with
  | nil => exact fun h => VNode.noConfusion (Option.some.inj h)
  | cons name names ih =>
    rw [walk]
    have hchild : ∀ child, s.walkIn (.virt tr) mount name = some child →
        ∃ tr', child = .virt tr' := by
      intro child hchild
      cases mount with
      | some tr₂ =>
        obtain ⟨tr', -, rfl⟩ := Option.map_eq_some_iff.mp hchild
        exact ⟨tr', rfl⟩
      | none =>
        obtain ⟨tr', -, rfl⟩ := Option.map_eq_some_iff.mp hchild
        exact ⟨tr', rfl⟩
    intro h
    obtain ⟨child, hc, hrest⟩ := Option.bind_eq_some_iff.mp h
    obtain ⟨tr', rfl⟩ := hchild child hc
    exact ih hrest

/-- **A walk to a node of the volume** is the walk of `lookup_abs`, and the node has the size of the
file. -/
theorem walk_ext (h : s.walk ms names (.ext m) mount = some (.ext n)) :
    s.descend names m.inode = some n.inode ∧ (names = [] ∧ n = m ∨ n.size = s.sizeOf n.inode) := by
  induction names generalizing m mount with
  | nil =>
    obtain rfl : m = n := VNode.ext.inj (Option.some.inj h)
    exact ⟨rfl, .inl ⟨rfl, rfl⟩⟩
  | cons name names ih =>
    rw [walk] at h
    obtain ⟨child, hc, hrest⟩ := Option.bind_eq_some_iff.mp h
    cases mount with
    | some tr =>
      obtain ⟨tr', -, rfl⟩ := Option.map_eq_some_iff.mp hc
      exact absurd hrest walk_virt
    | none =>
      obtain ⟨e, he, rfl⟩ := Option.map_eq_some_iff.mp hc
      obtain ⟨hdesc, hsize⟩ := ih hrest
      refine ⟨?_, .inr ?_⟩
      · rw [descend, child, he]
        exact hdesc
      · rcases hsize with ⟨-, rfl⟩ | hsize
        · rfl
        · exact hsize

/-! ## What is mounted on the way -/

/-- Something is mounted on a directory that one of the names leads to. -/
def Mounted (s : Fs) (ms : Mounts) : List Str → ℕ → Prop
  | [], _ => False
  | name :: names, d =>
    ∃ c, s.child d name = some c ∧ (mountOf ms ⟨[], c, 0, 0⟩ ≠ none ∨ Mounted s ms names c)

/-- What the names find on their way is found in the other state, too. -/
def SameWay (s u : Fs) : List Str → ℕ → Prop
  | [], _ => True
  | name :: names, d =>
    ∃ e, s.childEntry name d = some e ∧ u.childEntry name d = some e ∧ SameWay s u names e.ino

theorem walkIn_ext (s : Fs) (n : Fs.Node) (name : Str) :
    s.walkIn (.ext n) none name = s.findNode n.inode name := rfl

/-- The first of the names is found. -/
theorem SameWay.walk_cons {u : Fs} {name : Str} {e : Dirent}
    (hu : u.childEntry name n.inode = some e) :
    u.walk ms (name :: names) (.ext n) none =
      u.walk ms names (.ext ⟨name.take 63, e.ino, e.type, u.sizeOf e.ino⟩)
      (mountOf ms ⟨[], e.ino, 0, 0⟩) := by
  rw [walk, walkIn_ext, findNode, hu, Option.map_some, Option.bind_some]
  rfl

/-- **Where nothing is mounted** the names lead to a directory of the volume, and the rest is looked
up there. -/
theorem SameWay.walk_eq {u : Fs} {rest : List Str} {d : ℕ} (h : SameWay s u names m.inode)
    (hd : s.descend names m.inode = some d) (hno : ¬Mounted s ms names m.inode)
    (hn : n.inode = m.inode) :
    ∃ n', n'.inode = d ∧ u.walk ms (names ++ rest) (.ext n) none =
    u.walk ms rest (.ext n') none := by
  induction names generalizing m n with
  | nil => exact ⟨n, hn.trans (Option.some.inj hd), rfl⟩
  | cons name names ih =>
    obtain ⟨e, hs, hu, hway⟩ := h
    have hchild : s.child m.inode name = some e.ino := by rw [child, hs]; rfl
    rw [descend, hchild, Option.bind_some] at hd
    have hfree : mountOf ms ⟨[], e.ino, 0, 0⟩ = none := by
      by_contra hne
      exact hno ⟨e.ino, hchild, .inl hne⟩
    rw [← hn] at hu
    rw [List.cons_append, walk_cons hu, hfree]
    exact ih (m := ⟨[], e.ino, 0, 0⟩) hway hd (fun hm => hno ⟨e.ino, hchild, .inr hm⟩) rfl

end Fs

/-- **What a path of a process leads to.** -/
def Vfs.leads (w : Vfs) (cwd path : Str) : Option VNode :=
  (resolve path (some cwd) 256).bind fun abs => w.vol.walk w.mounts
    (components abs) (.ext w.root) none

/-- **`resolve`.** -/
theorem Vfs.wp_vfsResolve {w : Vfs} {t : Fs} (hg : w.vol.geo.Ok) (h : Still w.vol t)
    (cwd path : Str) :
    wp (vfsResolve w.mounts w.root cwd path) (fun r u => Still w.vol u ∧ r = w.leads cwd path)
      (fun _ => False) t := by
  rw [vfsResolve, leads]
  cases resolve path (some cwd) 256 with
  | none => exact ⟨h, rfl⟩
  | some abs => exact wp_resolveFrom hg h _ _ _

end Aurisys
