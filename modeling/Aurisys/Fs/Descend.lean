import Aurisys.Fs.Chunks
import Aurisys.Fs.Listing

/-!
# What a directory has under a name

`list_dir` reads the blocks of a directory one by one and hands what it finds to its callback. On a
volume that is not in order the names may go past the end of a block, and then the callback sees
what is in `g_b2` there. Reading does not change that, so a directory lists the same for everybody
who only reads, and a path leads to the same inode.

## Main definitions

* `Still` — the states list the same
* `listed` — what a callback makes of a directory
* `child`, `descend` — the inode under a name, and the one at the end of some names

## Main results

* `wp_listDir_still`
* `wp_lookupFrom_still`
-/

namespace Aurisys

open Bytes Fallible

namespace Fs

/-- The states read the same, and so does `g_b2` behind the end of a block. -/
structure Still (s t : Fs) : Prop where
  quiet : Quiet s t
  b2 : ∀ a, s.geo.bs ≤ a → t.b2 a = s.b2 a

/-- What `g_b2` is when a block of a directory has been read. -/
def dirBlock (s : Fs) (d b : ℕ) : Option Bytes :=
  (s.blockBytes (s.loaded d).ino b).map fun x => memcpy s.b2 0 x 0 s.geo.bs

variable {γ : Type}

/-- What a callback makes of some blocks. -/
def listedBlocks (s : Fs) (cb : Dirent → γ → Bool × γ) (d : ℕ) : List ℕ → ℕ → γ → Option (ℕ × γ)
  | [], count, ctx => some (count, ctx)
  | b :: bl, count, ctx => (s.dirBlock d b).bind fun x =>
    match callAll cb (dirents x s.geo.bs s.geo.bs 0) count ctx with
    | (true, count, ctx) => s.listedBlocks cb d bl count ctx
    | (false, count, ctx) => some (count, ctx)

/-- **What a callback makes of a directory.** -/
def listed (s : Fs) (cb : Dirent → γ → Bool × γ) (d : ℕ) (ctx : γ) : Option (ℕ × γ) :=
  if s.geo.IsIno d ∧ IsDir (s.loaded d).ino then
    s.listedBlocks cb d (List.range (s.geo.blocksOf (inodeSize (s.loaded d).ino))) 0 ctx
  else none

/-- The entry that a name has in a directory. -/
def childEntry (s : Fs) (name : Str) (d : ℕ) : Option Dirent :=
  (s.listed (findName name) d none).bind Prod.snd

/-- **The inode under a name.** -/
def child (s : Fs) (d : ℕ) (name : Str) : Option ℕ := (s.childEntry name d).map Dirent.ino

/-- **The inode at the end** of some names. -/
def descend (s : Fs) : List Str → ℕ → Option ℕ
  | [], d => some d
  | name :: names, d => (s.child d name).bind (s.descend names)

variable {s t u : Fs} {d b : ℕ} {cb : Dirent → γ → Bool × γ}

namespace Still

theorem refl (s : Fs) : Still s s := ⟨.refl s, fun _ _ => rfl⟩

theorem core (h : Still s t) : t.core = s.core := h.quiet.core

theorem geo (h : Still s t) : t.geo = s.geo := core_geo h.core

/-- A function that only reads does not come near the ends of the buffers. -/
theorem near (hn : Near s (s.loaded d).ino t) (hb2 : ∀ a, s.geo.bs ≤ a → t.b2 a = s.b2 a) :
    Still s t :=
  ⟨.of_near hn, hb2⟩

/-- The inode of a directory is loaded. -/
theorem loaded (h : Still s t) (hg : s.geo.Ok) (d : ℕ) :
    Near s (s.loaded d).ino (t.loaded d) ∧ ∀ a, s.geo.bs ≤ a → (t.loaded d).b2 a = s.b2 a :=
  ⟨h.quiet.loaded hg d, h.b2⟩

/-- **A block of a directory is read.** -/
theorem readDirBlock (h : Still s t) (hg : s.geo.Ok) (hi : s.geo.IsIno d)
    (hdir : IsDir (s.loaded d).ino) :
    wp (readDirBlock d b) (fun _ u => Still s u ∧ s.dirBlock d b = some u.b2)
      (fun u => Still s u ∧ s.dirBlock d b = none) t := by
  obtain ⟨hn, hb2⟩ := h.loaded hg d
  rw [Fs.readDirBlock, wp_bind, wp_loadInode (h.geo ▸ hg), h.geo]
  refine ⟨fun _ => ?_, fun hno => absurd hi hno⟩
  generalize t.loaded d = t₁ at hn hb2
  rw [wp_bind, wp_get, wp_bind, wp_guard, hn.ino]
  refine ⟨fun _ => ?_, fun hno => absurd hdir hno⟩
  rw [wp_bind]
  refine wp_mono (wp_and (wp_mapLblock_blockOf hn) (LeavesB2.mapLblock b t₁.b2 t₁ rfl)) ?_ ?_
  · rintro p t₂ ⟨⟨hp, hn₂⟩, hkeep⟩
    have hb2₂ : ∀ a, s.geo.bs ≤ a → t₂.b2 a = s.b2 a := fun a ha => by rw [hkeep, hb2 a ha]
    rw [wp_bind, wp_readB2, core_geo hn₂.core]
    constructor
    · intro hlt
      have hread : (t₂.read2 p).b2 = memcpy s.b2 0 (s.disk p) 0 s.geo.bs := by
        rw [read2, setB2_b2, core_geo hn₂.core, core_disk hn₂.core]
        funext a
        by_cases ha : a < s.geo.bs
        · rw [memcpy_zero_of_lt ha, memcpy_zero_of_lt ha]
        · rw [memcpy_of_lt_or_ge (by omega), memcpy_of_lt_or_ge (by omega), hb2₂ a (by omega)]
      rw [wp_pure]
      refine ⟨near ⟨Eq.trans rfl hn₂.core, hn₂.ino, hn₂.b1⟩ fun a ha => ?_, ?_⟩
      · rw [hread, memcpy_of_lt_or_ge (by omega)]
      · rw [dirBlock, blockBytes, hp, Option.bind_some, if_pos hlt, Option.map_some, hread]
    · intro hno
      exact ⟨near hn₂ hb2₂, by rw [dirBlock, blockBytes, hp, Option.bind_some, if_neg hno]; rfl⟩
  · rintro t₂ ⟨⟨hnone, hn₂⟩, hkeep⟩
    exact ⟨near hn₂ fun a ha => by rw [hkeep, hb2 a ha], by rw [dirBlock, blockBytes, hnone]; rfl⟩

theorem listBlocks (h : Still s t) (hg : s.geo.Ok) (hi : s.geo.IsIno d)
    (hdir : IsDir (s.loaded d).ino) (bl : List ℕ) (count : ℕ) (ctx : γ) :
    wp (listBlocks cb d bl count ctx)
      (fun r u => Still s u ∧ s.listedBlocks cb d bl count ctx = some r)
        (fun u => Still s u ∧ s.listedBlocks cb d bl count ctx = none) t := by
  induction bl generalizing t count ctx with
  | nil => exact ⟨h, rfl⟩
  | cons b bl ih =>
    rw [Fs.listBlocks, listedBlocks, wp_bind]
    refine wp_mono (h.readDirBlock hg hi hdir) ?_ ?_
    · rintro p u ⟨hu, hb⟩
      rw [hb, Option.bind_some, wp_bind, wp_get, hu.geo]
      generalize callAll cb (dirents u.b2 s.geo.bs s.geo.bs 0) count ctx = r
      rcases r with ⟨_ | _, count', ctx'⟩
      · exact ⟨hu, rfl⟩
      · exact ih hu count' ctx'
    · rintro u ⟨hu, hb⟩
      exact ⟨hu, by rw [hb]; rfl⟩

end Still

/-- **What `list_dir` does** from any state that lists the same. -/
theorem wp_listDir_still (hg : s.geo.Ok) (h : Still s t) (ctx : γ) :
    wp (listDir cb d ctx) (fun r u => Still s u ∧ s.listed cb d ctx = some r)
      (fun u => Still s u ∧ s.listed cb d ctx = none) t := by
  obtain ⟨hn, hb2⟩ := h.loaded hg d
  rw [listDir, wp_bind, wp_loadInode (h.geo ▸ hg), h.geo]
  constructor
  · intro hi
    generalize t.loaded d = t₁ at hn hb2
    rw [wp_bind, wp_get, wp_bind, wp_guard, hn.ino]
    constructor
    · intro hdir
      rw [listed, if_pos ⟨hi, hdir⟩, core_geo hn.core]
      exact (Still.near hn hb2).listBlocks hg hi hdir _ _ _
    · intro hdir
      exact ⟨.near hn hb2, if_neg fun hno => hdir hno.2⟩
  · intro hi
    exact ⟨h, if_neg fun hno => hi hno.1⟩

/-- **What is listed**, whatever is in the buffers. -/
theorem Still.entries_eq (hg : s.geo.Ok) (h : Still s t) (d : ℕ) :
    t.entries d = (s.listed collect d []).map Prod.snd := by
  have hlist : wp (listDir collect d []) (fun r u => Still s u ∧ s.listed collect d [] = some r)
      (fun u => Still s u ∧ s.listed collect d [] = none) t := wp_listDir_still hg h []
  rw [Fs.entries, fst_of_wp (wp_mono hlist (fun _ _ h => h.2) fun _ h => h.2)]

/-- One name is looked up. -/
theorem wp_lookupFrom_cons (hg : s.geo.Ok) (h : Still s t) {name : Str} {names : List Str}
    {Q : ℕ → Fs → Prop} {E : Fs → Prop}
    (hQ : ∀ c u, s.child d name = some c → Still s u → wp (lookupFrom names c) Q E u)
    (hE : s.child d name = none → ∀ u, Still s u → E u) :
    wp (lookupFrom (name :: names) d) Q E t := by
  rw [lookupFrom, wp_bind]
  refine wp_mono (wp_listDir_still hg h none) ?_ ?_
  · rintro ⟨count, found⟩ u ⟨hu, hlisted⟩
    have hentry : s.childEntry name d = found := by rw [childEntry, hlisted]; rfl
    rw [wp_bind, wp_ofOption]
    constructor
    · rintro e rfl
      exact hQ e.ino u (by rw [child, hentry]; rfl) hu
    · rintro rfl
      exact hE (by rw [child, hentry]; rfl) u hu
  · rintro u ⟨hu, hlisted⟩
    exact hE (by rw [child, childEntry, hlisted]; rfl) u hu

/-- **The loop of `lookup_abs`** over the names. -/
theorem wp_lookupFrom_still (hg : s.geo.Ok) (h : Still s t) (names : List Str) (d : ℕ) :
    wp (lookupFrom names d) (fun c u => Still s u ∧ s.descend names d = some c)
      (fun u => Still s u ∧ s.descend names d = none) t := by
  induction names generalizing d t with
  | nil => exact ⟨h, rfl⟩
  | cons name names ih =>
    rw [descend]
    refine wp_lookupFrom_cons hg h (fun c u hc hu => ?_) fun hnone u hu => ?_
    · rw [hc, Option.bind_some]
      exact ih hu c
    · rw [hnone]
      exact ⟨hu, rfl⟩

/-- What `lookup_abs` finds. -/
theorem exec_lookupFrom (hg : s.geo.Ok) (names : List Str) (k : ℕ) :
    (exec (lookupFrom names k) s).1 = s.descend names k :=
  fst_of_wp (wp_mono (wp_lookupFrom_still hg (.refl s) names k) (fun _ _ h => h.2) fun _ h => h.2)

end Fs

end Aurisys
